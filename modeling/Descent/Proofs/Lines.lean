import Mathlib
import Descent.Grammar.Ascii
import Descent.Proofs.LongestMatch
import Descent.Proofs.NestedLists
import Descent.Proofs.Standalone

namespace Descent
variable {w : Input}

namespace Grammar.Ascii

def line : Grammar := (noneOfChars "\r\n").many.recognize

def lines : Grammar := line.separatedList lineEnding

end Grammar.Ascii

/-- `lines` are the lines of `text`, and `endings` stand between them. -/
structure IsLines (text : List Int) (lines endings : List (List Int)) : Prop where
  length_eq : lines.length = endings.length + 1
  inside : ∀ line ∈ lines, ∀ e ∈ line, e ∉ [13, 10]
  ending : ∀ ending ∈ endings, ending = [13, 10] ∨ ending = [10] ∨ ending = [13]
  /-- A CR and an LF with nothing between them are one ending. -/
  together : ∀ i : Nat, endings[i]? = some [13] → lines[i + 1]? = some [] →
    endings[i + 1]? ≠ some [10]
  interleaved : (List.zipWith (· ++ ·) lines (endings ++ [[]])).flatten = text

def Words.lineEndings : Language Int := {[13, 10]} + {[10]} + {[13]}

theorem Words.cons_of_mem_lineEndings {x : List Int} (hx : x ∈ lineEndings) :
    ∃ e v, x = e :: v ∧ e ∈ [13, 10] := by
  rcases hx with (rfl | rfl) | rfl <;> exact ⟨_, _, rfl, by decide⟩

theorem Words.singleton_mem_lineEndings {e : Int} (he : e ∈ [13, 10]) : [e] ∈ lineEndings := by
  rcases List.mem_pair.mp he with rfl | rfl
  · exact .inr rfl
  · exact .inl (.inr rfl)

theorem Words.not_isLongest_lineEnding_nil {x : List Int} : ¬IsLongest lineEndings [] x := by
  intro h
  obtain ⟨e, v, rfl, -⟩ := cons_of_mem_lineEndings h.mem
  cases List.prefix_nil.mp h.isPrefix

/-- A line ending that stands in front of a text is the longest one, unless it is a CR in front of
an LF. -/
theorem isLongest_lineEnding_iff {ending rest : List Int} :
    IsLongest Words.lineEndings (ending ++ rest) ending ↔
      (ending = [13, 10] ∨ ending = [10] ∨ ending = [13]) ∧
        (ending = [13] → ∀ v, rest ≠ 10 :: v) := by
  constructor
  · intro h
    refine ⟨or_assoc.mp h.mem, ?_⟩
    rintro rfl v rfl
    have hlonger := h.longest [13, 10] (.inl (.inl rfl)) ⟨v, rfl⟩
    exact absurd hlonger (by decide)
  · rintro ⟨hending, hcr⟩
    refine ⟨or_assoc.mpr hending, List.prefix_append _ _, fun y hy hbegins => ?_⟩
    rcases hending with rfl | rfl | rfl
    · rcases hy with (rfl | rfl) | rfl
      · exact List.prefix_refl _
      · cases (List.cons_prefix_cons.mp hbegins).1
      · exact List.prefix_append _ _
    · rcases hy with (rfl | rfl) | rfl
      · cases (List.cons_prefix_cons.mp hbegins).1
      · exact List.prefix_refl _
      · cases (List.cons_prefix_cons.mp hbegins).1
    · rcases hy with (rfl | rfl) | rfl
      · obtain ⟨v, hv⟩ := (List.cons_prefix_cons.mp hbegins).2
        exact absurd hv.symm (hcr rfl v)
      · cases (List.cons_prefix_cons.mp hbegins).1
      · exact List.prefix_refl _

theorem bytes_lineEnding : Grammar.Ascii.bytes "\r\n" = [13, 10] ∧
    Grammar.Ascii.bytes "\n" = [10] ∧ Grammar.Ascii.bytes "\r" = [13] := by
  decide +kernel

theorem munches_lineEnding : Grammar.Ascii.lineEnding.Munches Words.lineEndings := by
  obtain ⟨hcrlf, hlf, hcr⟩ := bytes_lineEnding
  rw [Grammar.Ascii.lineEnding, hcrlf, hlf, hcr]
  refine ((Grammar.Munches.literal _).orElse (.literal _) ?_).orElse (.literal _) ?_
  · rintro _ rfl _ rfl
    decide
  · rintro _ (rfl | rfl) _ rfl <;> decide

/-- Behind the first line the text is at its end, or an ending and further lines follow. -/
inductive FurtherLines : List Int → List (List Int) → List (List Int) → Prop
  | none : FurtherLines [] [] []
  | more {after ending rest lines endings} : IsLongest Words.lineEndings after ending →
      after = ending ++ rest → IsLines rest lines endings →
      FurtherLines after lines (ending :: endings)

theorem FurtherLines.boundary {after : List Int} {lines endings : List (List Int)}
    (h : FurtherLines after lines endings) (e : Int) (v : List Int) (hafter : after = e :: v) :
    ¬e ∉ [13, 10] := by
  cases h with
  | none => cases hafter
  | more hending hsplit =>
    obtain ⟨a, u, rfl, ha⟩ := Words.cons_of_mem_lineEndings hending.mem
    obtain ⟨rfl, -⟩ := List.cons.inj (hafter.symm.trans hsplit)
    exact not_not.mpr ha

namespace IsLines
variable {text after line : List Int} {lines endings : List (List Int)}

/-- A text begins with an LF exactly if its first line is empty and LF ends it. -/
theorem cons_lf_iff (h : IsLines text lines endings) :
    (∃ v, text = 10 :: v) ↔ lines[0]? = some [] ∧ endings[0]? = some [10] := by
  obtain ⟨hlength, hinside, hending, -, htext⟩ := h
  cases lines with
  | nil => cases hlength
  | cons line lines =>
  cases line with
  | cons e line =>
    refine iff_of_false ?_ fun ⟨hempty, _⟩ => by cases hempty
    rintro ⟨v, hv⟩
    have he : e = 10 := by
      cases endings <;> exact (List.cons.inj (htext.trans hv)).1
    exact hinside (e :: line) List.mem_cons_self e List.mem_cons_self (by simp [he])
  | nil =>
    cases endings with
    | nil =>
      obtain rfl : lines = [] := List.length_eq_zero_iff.mp (Nat.succ.inj hlength)
      exact iff_of_false (fun ⟨v, hv⟩ => by cases htext.trans hv) fun ⟨_, hlf⟩ => by cases hlf
    | cons ending endings =>
      rcases hending ending List.mem_cons_self with rfl | rfl | rfl
      · exact iff_of_false (fun ⟨v, hv⟩ => by cases htext.trans hv) fun ⟨_, hlf⟩ => by cases hlf
      · exact iff_of_true ⟨_, htext.symm⟩ ⟨rfl, rfl⟩
      · exact iff_of_false (fun ⟨v, hv⟩ => by cases htext.trans hv) fun ⟨_, hlf⟩ => by cases hlf

theorem of_row (hline : IsRow (· ∉ [13, 10]) line after) (h : FurtherLines after lines endings) :
    IsLines (line ++ after) (line :: lines) endings := by
  cases h with
  | none => exact ⟨rfl, by simpa using hline.inside, by simp, by simp, by simp⟩
  | @more _ ending rest _ endings hending hsplit hlines =>
    subst hsplit
    obtain ⟨hkind, hcr⟩ := isLongest_lineEnding_iff.mp hending
    refine ⟨congrArg (· + 1) hlines.length_eq,
      List.forall_mem_cons.mpr ⟨hline.inside, hlines.inside⟩,
      List.forall_mem_cons.mpr ⟨hkind, hlines.ending⟩, fun i h h' h'' => ?_, ?_⟩
    · cases i with
      | zero =>
        obtain ⟨v, hv⟩ := hlines.cons_lf_iff.mpr ⟨h', h''⟩
        exact hcr (Option.some.inj h) v hv
      | succ i => exact hlines.together i h h' h''
    · rw [← hlines.interleaved]
      simp

theorem exists_row (h : IsLines text (line :: lines) endings) : ∃ after, text = line ++ after ∧
    IsRow (· ∉ [13, 10]) line after ∧ FurtherLines after lines endings := by
  suffices hfurther : ∃ after, line ++ after = text ∧ FurtherLines after lines endings by
    obtain ⟨after, rfl, hfurther⟩ := hfurther
    exact ⟨after, rfl, ⟨h.inside line List.mem_cons_self, hfurther.boundary⟩, hfurther⟩
  cases endings with
  | nil =>
    obtain rfl : lines = [] := List.length_eq_zero_iff.mp (Nat.succ.inj h.length_eq)
    exact ⟨[], Eq.trans (by simp) h.interleaved, .none⟩
  | cons ending endings =>
    have hrest : IsLines (List.zipWith (· ++ ·) lines (endings ++ [[]])).flatten lines endings :=
      ⟨Nat.succ.inj h.length_eq, fun l hl => h.inside l (List.mem_cons_of_mem _ hl),
        fun l hl => h.ending l (List.mem_cons_of_mem _ hl), fun i => h.together (i + 1), rfl⟩
    refine ⟨_, Eq.trans (by simp) h.interleaved,
      .more (isLongest_lineEnding_iff.mpr ⟨?_, ?_⟩) rfl hrest⟩
    · exact h.ending ending List.mem_cons_self
    · intro hcr v hv
      obtain ⟨hempty, hlf⟩ := hrest.cons_lf_iff.mp ⟨v, hv⟩
      exact h.together 0 (congrArg Option.some hcr) hempty hlf

theorem unique {lines' endings' : List (List Int)} (h : IsLines text lines endings)
    (h' : IsLines text lines' endings') : lines' = lines ∧ endings' = endings := by
  induction lines generalizing text endings lines' endings' with
  | nil => cases h.length_eq
  | cons line lines ih =>
  cases lines' with
  | nil => cases h'.length_eq
  | cons line' lines' =>
  obtain ⟨after, rfl, hrow, hfurther⟩ := h.exists_row
  obtain ⟨after', htext, hrow', hfurther'⟩ := h'.exists_row
  obtain rfl := hrow.unique hrow' htext
  obtain rfl := List.append_cancel_left htext
  cases hfurther with
  | none =>
    cases hfurther' with
    | none => exact ⟨rfl, rfl⟩
    | more hending => exact absurd hending Words.not_isLongest_lineEnding_nil
  | more hending hsplit hlines =>
    cases hfurther' with
    | none => exact absurd hending Words.not_isLongest_lineEnding_nil
    | more hending' hsplit' hlines' =>
      obtain rfl := hending.unique hending'
      obtain rfl := List.append_cancel_left (hsplit.symm.trans hsplit')
      obtain ⟨rfl, rfl⟩ := ih hlines hlines'
      exact ⟨rfl, rfl⟩

end IsLines

theorem derives_line {c : Cursor w} {run rest : List Int} (hc : c.remaining = run ++ rest)
    (hrow : IsRow (· ∉ [13, 10]) run rest) :
    Derives [] [] Grammar.Ascii.line c (.success (.slice run) (c.advance run.length)) := by
  have hmany : Derives [] [] (Grammar.noneOf [13, 10]).many c
      (.success (.list (run.map .element)) (c.advance run.length)) :=
    .repeated (fun _ _ h => .terminal h) (Terminal.Reads.noneOf.repeats hc hrow (Nat.zero_le _))
  have hslice := Derives.modify hmany .recognize
  rw [Cursor.sliceFrom_of_isPrefix ⟨rest, hc.symm⟩, ← bytes_lineEnding.1] at hslice
  exact hslice

theorem exists_lines (c : Cursor w) : ∃ line d lines endings e,
    Derives [] [] Grammar.Ascii.line c (.success (.slice line) d) ∧
    Continues (Derives [] [] Grammar.Ascii.line) (Derives [] [] Grammar.Ascii.lineEnding) d
      (lines.map .slice) e ∧
    e.remaining = [] ∧ IsLines c.remaining (line :: lines) endings := by
  induction c using Cursor.backward_induction with
  | step c ih =>
  obtain ⟨line, after, hc, hrow⟩ := IsRow.exists_split (· ∉ [13, 10]) c.remaining
  have hline := derives_line hc hrow
  have hafter := Cursor.remaining_advance hc
  obtain ⟨o, ho, hlongest⟩ := munches_lineEnding w (c.advance line.length)
  cases hlongest with
  | missing hnone =>
    have hnil : after = [] := by
      cases after with
      | nil => rfl
      | cons a v =>
        have ha : a ∈ [13, 10] := not_not.mp (hrow.boundary a v rfl)
        exact absurd ⟨v, hafter.symm⟩ (hnone [a] (Words.singleton_mem_lineEndings ha))
    subst hnil
    refine ⟨line, _, [], [], _, hline, .noSeparator ho, hafter, ?_⟩
    rw [hc]
    exact .of_row hrow .none
  | @found ending v hending =>
    obtain ⟨rest, hrest⟩ := hending.isPrefix
    -- An ending is never empty, so less is left behind it.
    have hgo : (c.advance line.length).position <
        ((c.advance line.length).advance ending.length).position := by
      obtain ⟨a, u, rfl, -⟩ := Words.cons_of_mem_lineEndings hending.mem
      rw [Cursor.advance_position_of_isPrefix hending.isPrefix, List.length_cons]
      omega
    have hle : c.position ≤ (c.advance line.length).position := hline.position_le
    obtain ⟨line', d, lines, endings, e, hline', hmore, hend, hlines⟩ :=
      ih ((c.advance line.length).advance ending.length) (by omega)
    have hle' := hline'.position_le
    refine ⟨line, _, line' :: lines, ending :: endings, e, hline,
      .more ho hline' (by omega) hmore, hend, ?_⟩
    rw [Cursor.remaining_advance hrest.symm] at hlines
    rw [hafter] at hrest hending
    rw [hc]
    exact .of_row hrow (.more hending hrest.symm hlines)

/-- A parse of any text as rows with line endings between them consumes all of it, and answers with
its lines. No line contains a CR or an LF, and there is one more of them than there are endings, of
which CR LF is one; lines and endings in turn make up the text, and no others do. -/
theorem lines_divide_text (rules : List (String × Grammar)) (depth : Nat) (w : Input) :
    ∃ lines endings transcript,
      Grammar.Ascii.lines.parse (depth + 1) rules w .whole = .ok transcript ∧
      transcript.answer = .complete (.list (lines.map .slice)) ∧
      IsLines w.codes.toList lines endings ∧
      ∀ lines' endings', IsLines w.codes.toList lines' endings' →
        lines' = lines ∧ endings' = endings := by
  obtain ⟨line, d, lines, endings, e, hline, hmore, hend, hlines⟩ := exists_lines (Cursor.start w)
  have hderives : Derives [] [] Grammar.Ascii.lines (Cursor.start w)
      (.success (.list ((line :: lines).map .slice)) e) :=
    .list hline (fun _ _ h => h) (fun _ _ h => h) hmore
  have hstandalone : Grammar.Ascii.lines.Standalone := ⟨trivial, ⟨trivial, trivial⟩, trivial⟩
  have hyields : Grammar.Ascii.lines.Yields (Extent.whole.cursor w) _ := hstandalone.yields hderives
  obtain ⟨transcript, hparse, hanswer⟩ := hyields.parse depth rules
  rw [Cursor.remaining_eq_drop, Cursor.start, List.drop_zero] at hlines
  exact ⟨_, endings, transcript, hparse,
    hanswer.trans (Extent.judge_whole_eq_complete_iff.mpr ⟨e, rfl, hend⟩), hlines,
    fun _ _ h => hlines.unique h⟩

/-- A CR in front of CR LF ends a line of its own, and the last line is empty. -/
example : ((Grammar.Ascii.lines.parse 1 [] ⟨.byte, #[97, 13, 13, 10], by decide⟩ .whole).map
    (·.answer)) = .ok (.complete (.list [.slice [97], .slice [], .slice []])) := by
  cbv

end Descent
