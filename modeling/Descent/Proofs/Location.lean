import Mathlib
import Descent.Excerpt

namespace Descent

section
variable {α : Type} {p : α → Bool}

theorem length_splitOnP (xs : List α) : (xs.splitOnP p).length = xs.countP p + 1 := by
  induction xs with
  | nil => rfl
  | cons x xs ih =>
    rw [List.splitOnP_cons_eq_if_modifyHead]
    by_cases hx : p x <;> simp [hx, ih]

theorem sum_length_splitOnP (xs : List α) :
    ((xs.splitOnP p).map fun l => l.length + 1).sum = xs.length + 1 := by
  induction xs with
  | nil => rfl
  | cons x xs ih =>
    rw [List.splitOnP_cons_eq_if_modifyHead]
    obtain ⟨l, ls, hl⟩ := List.exists_cons_of_ne_nil (List.splitOnP_ne_nil p xs)
    rw [hl] at ih ⊢
    by_cases hx : p x
    · rw [if_pos hx, List.map_cons, List.sum_cons, ih, List.length_cons, List.length_nil]
      omega
    · rw [List.map_cons, List.sum_cons] at ih
      rw [if_neg hx, List.modifyHead_cons, List.map_cons, List.sum_cons, List.length_cons,
        List.length_cons]
      omega

theorem splitOnP_eq_takeWhile_cons (xs : List α) :
    ∃ rest, xs.splitOnP p = xs.takeWhile (fun x => !p x) :: rest := by
  induction xs with
  | nil => exact ⟨[], rfl⟩
  | cons x xs ih =>
    obtain ⟨rest, hrest⟩ := ih
    rw [List.splitOnP_cons_eq_if_modifyHead, hrest]
    by_cases hx : p x
    · exact ⟨xs.takeWhile (fun x => !p x) :: rest, by simp [hx]⟩
    · exact ⟨rest, by simp [hx]⟩

theorem eq_append_rtakeWhile (xs : List α) :
    xs = xs.rtakeWhile (fun x => !p x) ∨
      ∃ front sep, p sep = true ∧ xs = front ++ sep :: xs.rtakeWhile fun x => !p x := by
  induction xs using List.reverseRecOn with
  | nil => exact .inl rfl
  | append_singleton xs x ih =>
    by_cases hx : p x
    · exact .inr ⟨xs, x, hx, by simp [hx]⟩
    · have hlast : (xs ++ [x]).rtakeWhile (fun x => !p x) =
          xs.rtakeWhile (fun x => !p x) ++ [x] := by
        simp [hx]
      rw [hlast]
      rcases ih with ih | ⟨front, sep, hsep, ih⟩
      · exact .inl (congrArg (· ++ [x]) ih)
      · exact .inr ⟨front, sep, hsep, by simpa using congrArg (· ++ [x]) ih⟩

theorem splitOnP_append (xs ys : List α) : ∃ above below,
    (xs ++ ys).splitOnP p =
      above ++ (xs.rtakeWhile (fun x => !p x) ++ ys.takeWhile fun x => !p x) :: below ∧
    above.length = xs.countP p ∧
    (above.map fun l => l.length + 1).sum + (xs.rtakeWhile fun x => !p x).length = xs.length := by
  have hplain : ∀ x ∈ xs.rtakeWhile (fun x => !p x), (!p x) = true :=
    fun x hx => List.mem_rtakeWhile_imp (p := fun x => !p x) hx
  obtain ⟨below, hbelow⟩ :=
    splitOnP_eq_takeWhile_cons (p := p) (xs.rtakeWhile (fun x => !p x) ++ ys)
  rw [List.takeWhile_append_of_pos hplain] at hbelow
  have hnone : (xs.rtakeWhile fun x => !p x).countP p = 0 :=
    List.countP_eq_zero.mpr fun x hx => by simpa using hplain x hx
  rcases eq_append_rtakeWhile (p := p) xs with hxs | ⟨front, sep, hsep, hxs⟩
  · refine ⟨[], below, ?_, ?_, ?_⟩
    · rw [List.nil_append, ← hbelow, ← hxs]
    · rw [hxs, hnone, List.length_nil]
    · simp [← hxs]
  · refine ⟨front.splitOnP p, below, ?_, ?_, ?_⟩
    · rw [← hbelow, ← List.splitOnP_append_cons _ _ hsep]
      congr 1
      conv_lhs => rw [hxs]
      simp
    · rw [length_splitOnP]
      conv_rhs => rw [hxs]
      simp [hsep, hnone]
    · rw [sum_length_splitOnP]
      conv_rhs => rw [hxs]
      simp only [List.length_append, List.length_cons]
      omega

end

namespace Input

theorem lines_eq_splitOnP (w : Input) : w.lines = w.codes.toList.splitOnP w.kind.isNewline := by
  rw [lines]
  induction w.codes.toList with
  | nil => rfl
  | cons x xs ih =>
    rw [List.foldr_cons, ih, List.splitOnP_cons_eq_if_modifyHead]
    obtain ⟨l, ls, hl⟩ := List.exists_cons_of_ne_nil (List.splitOnP_ne_nil w.kind.isNewline xs)
    rw [hl, List.modifyHead_cons]

/-- Count lines along elements and their places: the number of the last line and where it starts. -/
def countLines (w : Input) (xs : List (Int × Nat)) : Nat × Nat :=
  xs.foldl (fun s x => if w.kind.isNewline x.1 then (s.1 + 1, x.2 + 1) else s) (1, 0)

theorem countLines_zipIdx (w : Input) (xs : List Int) :
    w.countLines xs.zipIdx = (1 + xs.countP w.kind.isNewline,
      xs.length - (xs.reverse.takeWhile fun x => !w.kind.isNewline x).length) := by
  induction xs using List.reverseRecOn with
  | nil => rfl
  | append_singleton xs x ih =>
    have hlast : w.countLines (xs ++ [x]).zipIdx = if w.kind.isNewline x
        then ((w.countLines xs.zipIdx).1 + 1, xs.length + 1) else w.countLines xs.zipIdx := by
      simp [countLines, List.zipIdx_append, List.foldl_append]
    rw [hlast, ih]
    by_cases hx : w.kind.isNewline x <;> simp [hx, Nat.add_assoc]

end Input

namespace Cursor
variable {w : Input}

theorem before_eq (c : Cursor w) : c.before = w.codes.toList.take c.position := by
  rw [before, Input.slice_eq, List.drop_zero, Nat.sub_zero]

theorem length_before (c : Cursor w) : c.before.length = c.position := by
  have h := c.le_size
  rw [Input.size] at h
  rw [before_eq, List.length_take, Array.length_toList]
  omega

def lineText (c : Cursor w) : List Int :=
  c.before.rtakeWhile (fun x => !w.kind.isNewline x) ++
    (w.codes.toList.drop c.position).takeWhile fun x => !w.kind.isNewline x

theorem length_rtakeWhile_before (c : Cursor w) :
    (c.before.rtakeWhile fun x => !w.kind.isNewline x).length = c.lineOffset := by
  rw [List.rtakeWhile, List.length_reverse, lineOffset]

theorem lineOffset_le (c : Cursor w) : c.lineOffset ≤ c.lineText.length := by
  rw [lineText, List.length_append, length_rtakeWhile_before]
  exact Nat.le_add_right _ _

theorem exists_lines_eq (c : Cursor w) : ∃ above below, w.lines = above ++ c.lineText :: below ∧
    above.length + 1 = c.line ∧
    (above.map fun l => l.length + 1).sum + c.lineOffset = c.position := by
  obtain ⟨above, below, hlines, hcount, hsum⟩ :=
    splitOnP_append (p := w.kind.isNewline) c.before (w.codes.toList.drop c.position)
  have hcodes : c.before ++ w.codes.toList.drop c.position = w.codes.toList := by
    rw [before_eq, List.take_append_drop]
  rw [hcodes, ← Input.lines_eq_splitOnP] at hlines
  rw [length_rtakeWhile_before, length_before] at hsum
  refine ⟨above, below, hlines, ?_, hsum⟩
  rw [hcount, line, Nat.add_comm]

/-- A cursor stands `offset` elements behind the start of line `line`. -/
structure Located (c : Cursor w) (line offset : Nat) : Prop where
  newlines : line = 1 + (w.codes.toList.take c.position).countP w.kind.isNewline
  position : ((w.lines.take (line - 1)).map fun l => l.length + 1).sum + offset = c.position
  inside : ∃ text, w.lines[line - 1]? = some text ∧ offset ≤ text.length
  /-- Counting along the input gives the same line and the place where it starts. -/
  counted : w.countLines (w.codes.toList.take c.position).zipIdx = (line, c.position - offset)

theorem located (c : Cursor w) : c.Located c.line c.lineOffset := by
  obtain ⟨above, below, hlines, habove, hsum⟩ := c.exists_lines_eq
  have hline : c.line - 1 = above.length := by omega
  refine ⟨?_, ?_, ⟨c.lineText, ?_, c.lineOffset_le⟩, ?_⟩
  · rw [← before_eq, line]
  · rw [hline, hlines, List.take_left', hsum]
    rfl
  · rw [hline, hlines, List.getElem?_append_right (Nat.le_refl _), Nat.sub_self,
      List.getElem?_cons_zero]
  · rw [← before_eq, w.countLines_zipIdx, length_before]
    rfl

theorem Located.unique {c d : Cursor w} {line offset : Nat} (h : c.Located line offset)
    (h' : d.Located line offset) : c = d :=
  ext (h.position.symm.trans h'.position)

end Cursor

end Descent
