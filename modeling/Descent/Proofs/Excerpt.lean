import Mathlib
import Descent.Proofs.Location

namespace Descent

namespace Text.Utf8

theorem next_of_lt {b : Nat} (h : b < 0x80) (rest : List Nat) :
    next b rest = (Char.ofNat b, rest) := by
  simp [next, lead?, take, h]

theorem decodeAfter_of_lt (read : List Char) {bytes : List Nat} (h : ∀ b ∈ bytes, b < 0x80) :
    decodeAfter read bytes = read.reverse ++ bytes.map Char.ofNat := by
  induction bytes generalizing read with
  | nil => simp [decodeAfter]
  | cons b rest ih =>
    rw [decodeAfter, next_of_lt (h b List.mem_cons_self),
      ih _ fun x hx => h x (List.mem_cons_of_mem b hx)]
    simp

end Text.Utf8

/-- Characters, and bytes that are ASCII. -/
def ElementKind.ShowsSingly (k : ElementKind) (codes : List Int) : Prop :=
  k = .char ∨ k = .byte ∧ ∀ x ∈ codes, 0 ≤ x ∧ x < 128

theorem ElementKind.ShowsSingly.describeAll_eq {k : ElementKind} {codes : List Int}
    (h : k.ShowsSingly codes) :
    (k.describeAll codes).toList = codes.map fun x => Char.ofNat x.toNat := by
  rcases h with rfl | ⟨rfl, hascii⟩
  · rw [describeAll, String.toList_ofList]
  · have hlt : ∀ b ∈ codes.map Int.toNat, b < 0x80 := by
      intro b hb
      obtain ⟨x, hx, rfl⟩ := List.mem_map.mp hb
      have h := hascii x hx
      omega
    rw [describeAll, String.toList_ofList, Text.Utf8.decode, Text.Utf8.decodeAfter_of_lt [] hlt,
      List.map_map]
    rfl

def Input.plainLine (w : Input) (l : List Int × Nat) : String :=
  "    " ++ toString l.2 ++ " | " ++ w.kind.describeAll l.1

theorem map_snd_filter_zipIdx {α : Type} (xs : List α) (s a b : Nat) :
    ((xs.zipIdx s).filter fun l => a ≤ l.2 ∧ l.2 ≤ b).map (·.2) =
      List.range' (max s a) (min (s + xs.length) (b + 1) - max s a) := by
  induction xs generalizing s with
  | nil =>
    have hzero : min s (b + 1) - max s a = 0 := by omega
    simp [hzero]
  | cons x xs ih =>
    rw [List.zipIdx_cons, List.filter_cons, List.length_cons]
    by_cases hs : a ≤ s ∧ s ≤ b
    · have hmax : max s a = s := Nat.max_eq_left hs.1
      have hmax' : max (s + 1) a = s + 1 := by omega
      have hcount : min (s + (xs.length + 1)) (b + 1) - s =
          min (s + 1 + xs.length) (b + 1) - (s + 1) + 1 := by omega
      rw [if_pos (by simpa using hs), List.map_cons, ih, hmax, hmax', hcount, List.range'_succ]
    · rw [if_neg (by simpa using hs), ih]
      by_cases ha : s < a
      · have hmax : max (s + 1) a = max s a := by omega
        rw [hmax, Nat.add_right_comm, Nat.add_assoc s]
      · have hzero : min (s + (xs.length + 1)) (b + 1) - max s a = 0 := by omega
        have hzero' : min (s + 1 + xs.length) (b + 1) - max (s + 1) a = 0 := by omega
        rw [hzero, hzero', List.range'_zero, List.range'_zero]

def Marked (s : String) : Prop := "  > ".toList <+: s.toList

def IsPointer (s : String) : Prop := ∃ n, s = String.ofList (List.replicate n ' ') ++ "^--- here"

/-- The first character that is no blank. -/
def firstInk? (s : String) : Option Char := (s.toList.dropWhile (· == ' ')).head?

theorem firstInk?_of_blanks {n : Nat} {ink : Char} {rest : List Char} {s : String}
    (hs : s.toList = List.replicate n ' ' ++ ink :: rest) (hink : ink ≠ ' ') :
    firstInk? s = some ink := by
  have hblank : ∀ x ∈ List.replicate n ' ', (x == ' ') = true := by
    intro x hx
    rw [(List.mem_replicate.mp hx).2]
    rfl
  rw [firstInk?, hs, List.dropWhile_append_of_pos hblank,
    List.dropWhile_cons_of_neg (by simpa using hink)]
  rfl

theorem Marked.firstInk?_eq {s : String} (h : Marked s) : firstInk? s = some '>' := by
  obtain ⟨rest, hrest⟩ := h
  exact firstInk?_of_blanks (n := 2) hrest.symm (by decide)

theorem IsPointer.firstInk?_eq {s : String} (h : IsPointer s) : firstInk? s = some '^' := by
  obtain ⟨n, rfl⟩ := h
  have hs : (String.ofList (List.replicate n ' ') ++ "^--- here").toList =
      List.replicate n ' ' ++ '^' :: "--- here".toList := by
    rw [String.toList_append, String.toList_ofList]
    rfl
  exact firstInk?_of_blanks hs (by decide)

theorem Input.isDigit_firstInk?_plainLine (w : Input) (l : List Int × Nat) :
    ∃ d, firstInk? (w.plainLine l) = some d ∧ d.isDigit = true := by
  obtain ⟨d, ds, hd⟩ := List.exists_cons_of_ne_nil (Nat.toDigits_ne_nil (n := l.2) (b := 10))
  have hdigit : d.isDigit = true := by
    refine Nat.isDigit_of_mem_toDigits (b := 10) (n := l.2) (by omega) (Nat.le_refl _) ?_
    rw [hd]
    exact List.mem_cons_self
  have hnumber : (toString l.2).toList = d :: ds := Nat.toList_repr.trans hd
  have hs : (w.plainLine l).toList = List.replicate 4 ' ' ++
      d :: (ds ++ " | ".toList ++ (w.kind.describeAll l.1).toList) := by
    simp only [plainLine, String.toList_append, hnumber]
    rfl
  refine ⟨d, firstInk?_of_blanks hs ?_, hdigit⟩
  rintro rfl
  cases hdigit

theorem Input.not_marked_plainLine (w : Input) (l : List Int × Nat) :
    ¬Marked (w.plainLine l) ∧ ¬IsPointer (w.plainLine l) := by
  obtain ⟨d, hd, hdigit⟩ := w.isDigit_firstInk?_plainLine l
  refine ⟨fun h => ?_, fun h => ?_⟩
  · rw [h.firstInk?_eq] at hd
    cases hd
    cases hdigit
  · rw [h.firstInk?_eq] at hd
    cases hd
    cases hdigit

namespace Cursor
variable {w : Input}

def markedLine (c : Cursor w) : String :=
  "  > " ++ toString c.line ++ " | " ++ w.kind.describeAll c.lineText

/-- The column of the pointer: the margin of the marked line and the offset in the line. -/
def column (c : Cursor w) : Nat := ("  > " ++ toString c.line ++ " | ").length + c.lineOffset

def pointer (c : Cursor w) : String :=
  String.ofList (List.replicate c.column ' ') ++ "^--- here"

theorem marked_markedLine (c : Cursor w) : Marked c.markedLine := by
  refine ⟨(toString c.line).toList ++ " | ".toList ++ (w.kind.describeAll c.lineText).toList, ?_⟩
  simp [markedLine]

theorem isPointer_pointer (c : Cursor w) : IsPointer c.pointer := ⟨c.column, rfl⟩

theorem not_isPointer_markedLine (c : Cursor w) : ¬IsPointer c.markedLine := by
  intro h
  cases h.firstInk?_eq.symm.trans c.marked_markedLine.firstInk?_eq

theorem not_marked_pointer (c : Cursor w) : ¬Marked c.pointer := by
  intro h
  cases h.firstInk?_eq.symm.trans c.isPointer_pointer.firstInk?_eq

theorem excerptLine_of_ne {c : Cursor w} {l : List Int × Nat} (h : l.2 ≠ c.line) :
    c.excerptLine l.2 l.1 = [w.plainLine l] := by
  rw [excerptLine, if_neg h, margin, if_neg h, Input.plainLine]

theorem excerptLine_line (c : Cursor w) :
    c.excerptLine c.line c.lineText = [c.markedLine, c.pointer] := by
  rw [excerptLine, if_pos rfl, margin, if_pos rfl, markedLine, pointer, column]

theorem flatMap_excerptLine {c : Cursor w} {ls : List (List Int × Nat)}
    (h : ∀ l ∈ ls, l.2 ≠ c.line) :
    ls.flatMap (fun l => c.excerptLine l.2 l.1) = ls.map w.plainLine := by
  rw [List.map_eq_flatMap]
  exact List.flatMap_congr fun l hl => excerptLine_of_ne (h l hl)

/-- An excerpt lists the lines `above` the cursor's own, that line with the pointer, and the lines
`below` it. -/
structure Excerpted (c : Cursor w) (above below : List (List Int × Nat)) : Prop where
  /-- The numbers run from two lines above to two lines below, as far as there are lines. -/
  numbers : (above ++ (c.lineText, c.line) :: below).map (·.2) =
    List.range' (max 1 (c.line - 2)) (min (c.line + 2) w.lines.length + 1 - max 1 (c.line - 2))
  existing : ∀ l ∈ above ++ (c.lineText, c.line) :: below,
    1 ≤ l.2 ∧ w.lines[l.2 - 1]? = some l.1
  excerpt_eq : c.excerpt =
    above.map w.plainLine ++ c.markedLine :: c.pointer :: below.map w.plainLine
  marked : Marked c.markedLine ∧ ¬IsPointer c.markedLine
  pointer : IsPointer c.pointer ∧ ¬Marked c.pointer
  plain : ∀ l ∈ above.map w.plainLine ++ below.map w.plainLine, ¬Marked l ∧ ¬IsPointer l

theorem exists_excerpted (c : Cursor w) : ∃ above below, c.Excerpted above below := by
  obtain ⟨above, below, hlines, habove, -⟩ := c.exists_lines_eq
  let keep : List Int × Nat → Bool := fun l => c.line ≤ l.2 + 2 ∧ l.2 ≤ c.line + 2
  have hshown : (w.lines.zipIdx 1).filter keep = (above.zipIdx 1).filter keep ++
      (c.lineText, c.line) :: (below.zipIdx (c.line + 1)).filter keep := by
    have hkeep : keep (c.lineText, c.line) = true := by
      simp [keep]
    rw [hlines, List.zipIdx_append, List.zipIdx_cons, Nat.add_comm 1, habove, List.filter_append,
      List.filter_cons_of_pos hkeep]
  refine ⟨(above.zipIdx 1).filter keep, (below.zipIdx (c.line + 1)).filter keep, ?_, ?_, ?_,
    ⟨c.marked_markedLine, c.not_isPointer_markedLine⟩,
    ⟨c.isPointer_pointer, c.not_marked_pointer⟩, ?_⟩
  · -- Near the first line the difference is cut off at zero, which lets no line more through.
    have hcut : (w.lines.zipIdx 1).filter keep =
        (w.lines.zipIdx 1).filter fun l => c.line - 2 ≤ l.2 ∧ l.2 ≤ c.line + 2 := by
      refine List.filter_congr fun l _ => decide_eq_decide.mpr ?_
      omega
    rw [← hshown, hcut, map_snd_filter_zipIdx]
    congr 1
    omega
  · intro l hl
    rw [← hshown] at hl
    exact List.mem_zipIdx_iff_le_and_getElem?_sub.mp (List.mem_filter.mp hl).1
  · have hbefore : ∀ l ∈ (above.zipIdx 1).filter keep, l.2 ≠ c.line := by
      intro l hl
      have h := List.snd_lt_add_of_mem_zipIdx (List.mem_filter.mp hl).1
      omega
    have hbehind : ∀ l ∈ (below.zipIdx (c.line + 1)).filter keep, l.2 ≠ c.line := by
      intro l hl
      have h := List.le_snd_of_mem_zipIdx (List.mem_filter.mp hl).1
      omega
    have hexcerpt : c.excerpt =
        ((w.lines.zipIdx 1).filter keep).flatMap fun l => c.excerptLine l.2 l.1 := rfl
    rw [hexcerpt, hshown, List.flatMap_append, List.flatMap_cons, flatMap_excerptLine hbefore,
      flatMap_excerptLine hbehind, excerptLine_line]
    rfl
  · intro l hl
    rw [← List.map_append] at hl
    obtain ⟨n, -, rfl⟩ := List.mem_map.mp hl
    exact w.not_marked_plainLine n

/-- Behind the offset, a line has the element at the cursor, or nothing if that ends the line. -/
theorem lineText_getElem? (c : Cursor w) :
    c.lineText[c.lineOffset]? = c.element?.filter fun x => !w.kind.isNewline x := by
  have hlength := c.length_rtakeWhile_before
  rw [lineText, List.getElem?_append_right (Nat.le_of_eq hlength), hlength, Nat.sub_self,
    ← List.head?_eq_getElem?, List.head?_takeWhile, List.head?_drop, Array.getElem?_toList]
  rfl

/-- The pointer stands below the element at the cursor, or behind the text of a line that ends
there. -/
structure Pointed (c : Cursor w) : Prop where
  arrow : c.pointer.toList[c.column]? = some '^'
  below : ∀ x, c.element? = some x → w.kind.isNewline x = false →
    c.markedLine.toList[c.column]? = some (Char.ofNat x.toNat)
  behind : (∀ x, c.element? = some x → w.kind.isNewline x = true) → c.markedLine.length = c.column

theorem pointed (c : Cursor w) (h : w.kind.ShowsSingly c.lineText) : c.Pointed := by
  refine ⟨?_, fun x hx hplain => ?_, fun hends => ?_⟩
  · simp [pointer]
  · have hlength : ("  > " ++ toString c.line ++ " | ").toList.length ≤ c.column := by
      rw [String.length_toList, column]
      exact Nat.le_add_right _ _
    have hoffset :
        c.column - ("  > " ++ toString c.line ++ " | ").toList.length = c.lineOffset := by
      rw [String.length_toList, column, Nat.add_sub_cancel_left]
    rw [markedLine, String.toList_append, List.getElem?_append_right hlength, hoffset,
      h.describeAll_eq, List.getElem?_map, lineText_getElem?, hx]
    simp [hplain]
  · have hnone : c.lineText[c.lineOffset]? = none := by
      rw [lineText_getElem?, Option.filter_eq_none_iff]
      simpa using hends
    have hlength : c.lineText.length = c.lineOffset :=
      Nat.le_antisymm (List.getElem?_eq_none_iff.mp hnone) c.lineOffset_le
    rw [markedLine, String.length_append, ← String.length_toList (s := w.kind.describeAll _),
      h.describeAll_eq, List.length_map, hlength, column]

end Cursor

/-- Every position is told by a line that exists and an offset within it, which lead back to the
clamped position. The lines around it are shown with one mark and one pointer, and the pointer
stands at the column of the element where each element shows as one character. -/
theorem located_excerpt (w : Input) (p : Nat) :
    let c := Cursor.clamp w p
    c.position = min p w.size ∧ w.lines = w.codes.toList.splitOnP w.kind.isNewline ∧
      c.Located c.line c.lineOffset ∧
      (∀ q, (Cursor.clamp w q).line = c.line → (Cursor.clamp w q).lineOffset = c.lineOffset →
        min q w.size = min p w.size) ∧
      (∃ above below, c.Excerpted above below) ∧ (w.kind.ShowsSingly c.lineText → c.Pointed) := by
  intro c
  refine ⟨rfl, w.lines_eq_splitOnP, c.located, fun q hline hoffset => ?_, c.exists_excerpted,
    c.pointed⟩
  have hq := (Cursor.clamp w q).located
  rw [hline, hoffset] at hq
  exact congrArg Cursor.position (hq.unique c.located)

theorem located_excerpt_newline :
    let w : Input := ⟨.byte, #[97, 10, 98, 99, 10], by decide⟩
    let c := Cursor.clamp w 4
    w.kind.ShowsSingly c.lineText ∧ c.Pointed ∧
      c.excerpt = ["    1 | a", "  > 2 | bc", "          ^--- here", "    3 | "] := by
  intro w c
  have hshows : w.kind.ShowsSingly c.lineText := .inr ⟨rfl, by decide⟩
  have hexcerpt : c.excerpt =
      ["    1 | a", "  > 2 | bc", "          ^--- here", "    3 | "] := by
    cbv
  exact ⟨hshows, (located_excerpt w 4).2.2.2.2.2 hshows, hexcerpt⟩

end Descent
