import Mathlib
import Descent.Proofs.DecimalText
import Descent.Proofs.LongestMatch
import Descent.Proofs.Standalone

namespace Descent
variable {w : Input}

open Decimal (natural integer)
open Grammar.Ascii (bytes digits sign unsigned64 signed64)

/-- A text is a sign of `signs` or none, then all digits that follow, then `rest`. -/
structure IntegerText (signs text s run rest : List Int) : Prop where
  split : text = s ++ (run ++ rest)
  sign : s = [] ∧ (∀ e v, text = e :: v → e ∉ signs) ∨ ∃ e ∈ signs, s = [e]
  row : IsRow IsDigit run rest

theorem IntegerText.exists_split (signs text : List Int) :
    ∃ s run rest, IntegerText signs text s run rest := by
  by_cases h : ∃ e ∈ signs, ∃ v, text = e :: v
  · obtain ⟨e, he, v, rfl⟩ := h
    obtain ⟨run, rest, rfl, hrow⟩ := IsRow.exists_split IsDigit v
    exact ⟨[e], run, rest, rfl, .inr ⟨e, he, rfl⟩, hrow⟩
  · obtain ⟨run, rest, rfl, hrow⟩ := IsRow.exists_split IsDigit text
    exact ⟨[], run, rest, rfl, .inl ⟨rfl, fun e v hv he => h ⟨e, he, v, hv⟩⟩, hrow⟩

theorem IntegerText.unique {signs text s s' run run' rest rest' : List Int}
    (h : IntegerText signs text s run rest) (h' : IntegerText signs text s' run' rest') :
    s = s' ∧ run = run' := by
  have hs : s = s' := by
    rcases h.sign with ⟨rfl, hnone⟩ | ⟨e, he, rfl⟩
    · rcases h'.sign with ⟨rfl, -⟩ | ⟨e', he', rfl⟩
      · rfl
      · exact absurd he' (hnone e' _ h'.split)
    · rcases h'.sign with ⟨rfl, hnone'⟩ | ⟨e', he', rfl⟩
      · exact absurd he (hnone' e _ h.split)
      · rw [(List.cons.inj (h.split.symm.trans h'.split)).1]
  subst hs
  exact ⟨rfl, h.row.unique h'.row (List.append_cancel_left (h.split.symm.trans h'.split))⟩

namespace Words

def sign : Language Int := 1 + oneOf [43, 45]

def digits : Language Int := rows IsDigit

theorem over_sign : Over (¬IsDigit ·) sign := ((Over.oneOf _).mono (by decide)).one_add

theorem begin_digits : Begin IsDigit digits := (Over.rows _).begin

end Words

namespace IntegerText
variable {text s run rest : List Int}

theorem sign_cases (h : IntegerText [43, 45] text s run rest) : s = [] ∨ s = [43] ∨ s = [45] := by
  rcases h.sign with ⟨hs, -⟩ | ⟨e, he, hs⟩
  · exact .inl hs
  · rw [hs]
    simpa using he

theorem ascii (h : IntegerText [43, 45] text s run rest) : ∀ e ∈ s ++ run, 0 ≤ e ∧ e < 128 := by
  intro e he
  rcases List.mem_append.mp he with hs | hrun
  · rcases h.sign_cases with rfl | rfl | rfl
    · cases hs
    · rw [List.mem_singleton.mp hs]
      decide
    · rw [List.mem_singleton.mp hs]
      decide
  · exact (h.row.inside e hrun).ascii

theorem isLongest_sign (h : IntegerText [43, 45] text s run rest) : IsLongest Words.sign text s := by
  rcases h.sign with ⟨rfl, hnone⟩ | ⟨e, he, rfl⟩
  · exact .nil (Words.not_isPrefix_of_oneOf hnone)
  · rw [h.split]
    exact .one_add (.single he)

theorem isLongest (h : IntegerText [43, 45] text s run rest) (hne : run ≠ []) :
    IsLongest (Words.sign * Words.digits) text (s ++ run) := by
  have hsign := h.isLongest_sign
  rw [h.split] at hsign ⊢
  exact hsign.append (h.row.isLongest hne) (.of_begin Words.over_sign Words.begin_digits)

end IntegerText

namespace Grammar.Ascii

theorem reads_sign (w : Input) :
    ∃ refusal, Terminal.Reads w (.oneOf (bytes "+-")) (· ∈ [43, 45]) refusal := by
  have hbytes : bytes "+-" = [43, 45] := by decide +kernel
  rw [hbytes]
  exact ⟨_, .oneOf⟩

theorem munches_row : digit.some.Munches Words.digits :=
  .row fun _ => ⟨_, .range⟩

theorem munches_digits : digits.Munches Words.digits := munches_row.recognize

theorem munches_sign : sign.Munches Words.sign :=
  (Munches.terminal reads_sign).optional

theorem munches_signed : (sign.andThen digits).Munches (Words.sign * Words.digits) :=
  munches_sign.andThen munches_digits (.of_begin Words.over_sign Words.begin_digits)

end Grammar.Ascii

def Cursor.noDigit (c : Cursor w) : ParseError :=
  match c.element? with
  | none => .unexpectedEnd c.position
  | some x => .rangeMismatch (Parser.expectedFound w
      ("element in range " ++ w.kind.describe 48 ++ "-" ++ w.kind.describe 57) x) c.position

theorem Cursor.noDigit_position (c : Cursor w) : c.noDigit.position = c.position := by
  unfold noDigit
  split <;> rfl

section
variable {c : Cursor w} {s run rest : List Int}

theorem matches_noDigit (hc : ∀ e v, c.remaining = e :: v → ¬IsDigit e) :
    Terminal.Matches (.range 48 57) c (.failure c.noDigit) := by
  unfold Cursor.noDigit
  cases hx : c.element? with
  | none => exact .ended .range hx
  | some x => exact .refuse .range hx (hc x _ (Cursor.remaining_of_element? hx))

theorem derives_digits_of_none (hc : ∀ e v, c.remaining = e :: v → ¬IsDigit e) :
    Derives [] [] digits c (.failure c.noDigit) :=
  .modify (matches_noDigit hc).derives_some_of_failure (.fails trivial)

theorem derives_signed_of_none (h : IntegerText [43, 45] c.remaining s [] rest) :
    Derives [] [] (sign.andThen digits) c (.failure (c.advance s.length).noDigit) := by
  obtain ⟨x, hsign⟩ := Grammar.Ascii.munches_sign.exists_success h.isLongest_sign
  have hnone : ∀ e v, (c.advance s.length).remaining = e :: v → ¬IsDigit e := by
    rw [Cursor.remaining_advance h.split]
    exact h.row.boundary
  exact .sequence hsign (derives_digits_of_none hnone)

end

namespace Decimal

def outOfRange (text : List Int) (size : String) : String :=
  "invalid number '" ++ shown text ++ "': number too " ++ size ++ " to fit in target type"

theorem message_eq {text : List Int} (h : ∀ e ∈ text, 0 ≤ e ∧ e < 128) :
    RangeError.tooLarge.message text = outOfRange text "large" ∧
      RangeError.tooSmall.message text = outOfRange text "small" := by
  constructor
  all_goals
    unfold RangeError.message
    rw [describeAll_eq_shown h]
    rfl

/-- The value of an integer between `low` and `high`, or why there is none. -/
def checked (wrap : Int → Tree) (low high : Int) (s run : List Int) : Except String Tree :=
  if integer s run < low then .error (outOfRange (s ++ run) "small")
  else if integer s run ≤ high then .ok (wrap (integer s run))
  else .error (outOfRange (s ++ run) "large")

end Decimal

open Decimal (outOfRange checked)

/-- What reading an integer with the sign `s` and the digits `run` at `c` comes to, if the values
from `low` to `high` fit its type. -/
inductive ReadsInteger (wrap : Int → Tree) (low high : Int) (c : Cursor w) (s run : List Int) :
    Outcome w Tree → Prop
  | missing : run = [] → ReadsInteger wrap low high c s run
      (.failure (c.advance s.length).noDigit)
  | fits : run ≠ [] → low ≤ integer s run → integer s run ≤ high →
      ReadsInteger wrap low high c s run
        (.success (wrap (integer s run)) (c.advance (s ++ run).length))
  | tooLarge : run ≠ [] → high < integer s run → ReadsInteger wrap low high c s run
      (.failure (.custom (outOfRange (s ++ run) "large") c.position))
  | tooSmall : run ≠ [] → integer s run < low → ReadsInteger wrap low high c s run
      (.failure (.custom (outOfRange (s ++ run) "small") c.position))

/-- A text that was read from `c` to `d` and then converted. What is refused fails at `c`. -/
def Outcome.converted (c d : Cursor w) : Except String Tree → Outcome w Tree
  | .ok y => .success y d
  | .error reason => .failure (.custom reason c.position)

namespace Derives
variable {rules : List (String × Grammar)} {frames : Frames} {g : Grammar} {c d : Cursor w}

theorem converted {x : Tree} (h : Derives rules frames g c (.success x d))
    (f : Tree → Except String Tree) :
    Derives rules frames (Grammar.tryMap f g) c (.converted c d (f x)) := by
  cases hx : f x with
  | ok y => exact .modify h (.accept hx)
  | error reason => exact .modify h (.reject hx)

theorem not_converted {e : ParseError} (h : Derives rules frames g c (.failure e))
    (f : Tree → Except String Tree) : Derives rules frames (Grammar.tryMap f g) c (.failure e) :=
  .modify h (.fails trivial)

end Derives

/-- Reading the text first and checking its value after that is reading an integer. -/
theorem ReadsInteger.of_checked {f : Tree → Except String Tree} {g : Grammar} {c : Cursor w}
    {wrap : Int → Tree} {low high : Int} {s run : List Int}
    (hnone : run = [] → Derives [] [] g c (.failure (c.advance s.length).noDigit))
    (htext : run ≠ [] →
      Derives [] [] g c (.success (.slice (s ++ run)) (c.advance (s ++ run).length)))
    (hf : f (.slice (s ++ run)) = checked wrap low high s run) :
    ∃ o, Derives [] [] (Grammar.tryMap f g) c o ∧ ReadsInteger wrap low high c s run o := by
  by_cases hne : run = []
  · exact ⟨_, (hnone hne).not_converted f, .missing hne⟩
  · refine ⟨_, (htext hne).converted f, ?_⟩
    rw [hf, checked]
    split_ifs with hlow hhigh
    · exact .tooSmall hne hlow
    · exact .fits hne (not_lt.mp hlow) hhigh
    · exact .tooLarge hne (not_le.mp hhigh)

namespace Grammar.Ascii
variable {text s run rest : List Int}

theorem toUnsigned_eq (hrow : IsRow IsDigit run rest) : toUnsigned (.slice run) =
    checked (fun n => .unsigned64 n.toNat) 0 (2 ^ 64 - 1) [] run := by
  have hread : Decimal.readUnsigned run =
      if natural run < 2 ^ 64 then .ok (natural run) else .error .tooLarge := by
    rw [Decimal.readUnsigned, Decimal.value_eq_natural]
    rfl
  have hascii : ∀ e ∈ run, 0 ≤ e ∧ e < 128 := fun e he => (hrow.inside e he).ascii
  have hinteger : integer [] run = natural run := rfl
  rw [toUnsigned, Tree.elements_slice, hread, checked, hinteger, List.nil_append,
    ← (Decimal.message_eq hascii).1]
  split_ifs
  all_goals first | rfl | omega

theorem toSigned_eq (h : IntegerText [43, 45] text s run rest) : toSigned (.slice (s ++ run)) =
    checked .signed64 (-2 ^ 63) (2 ^ 63 - 1) s run := by
  have hread : Decimal.readSigned (s ++ run) =
      if integer s run < -2 ^ 63 then .error .tooSmall
      else if integer s run < 2 ^ 63 then .ok (integer s run)
      else .error .tooLarge := by
    rw [Decimal.readSigned, Decimal.signedValue_append h.sign_cases h.row.inside]
    rfl
  have hmessage := Decimal.message_eq h.ascii
  rw [toSigned, Tree.elements_slice, hread, checked, ← hmessage.1, ← hmessage.2]
  split_ifs
  all_goals first | rfl | omega

end Grammar.Ascii

section
variable {c d : Cursor w} {s run rest : List Int}

theorem exists_unsigned (hc : c.remaining = run ++ rest) (hrow : IsRow IsDigit run rest) :
    ∃ o, unsigned64.Yields c o ∧
      ReadsInteger (fun n => .unsigned64 n.toNat) 0 (2 ^ 64 - 1) c [] run o := by
  have hnone (hrun : run = []) : Derives [] [] digits c
      (.failure (c.advance ([] : List Int).length).noDigit) := by
    rw [List.length_nil, Cursor.advance_zero]
    exact derives_digits_of_none (by simpa [hc, hrun] using hrow.boundary)
  have hdigits (hne : run ≠ []) :=
    Grammar.Ascii.munches_row.derives_slice (hc ▸ hrow.isLongest hne)
  obtain ⟨o, hderives, ho⟩ := ReadsInteger.of_checked hnone hdigits
    (Grammar.Ascii.toUnsigned_eq hrow)
  exact ⟨o, Grammar.Standalone.yields trivial hderives, ho⟩

theorem exists_signed (h : IntegerText [43, 45] c.remaining s run rest) :
    ∃ o, signed64.Yields c o ∧ ReadsInteger .signed64 (-2 ^ 63) (2 ^ 63 - 1) c s run o := by
  have hnone (hrun : run = []) : Derives [] [] (sign.andThen digits).recognize c
      (.failure (c.advance s.length).noDigit) := by
    subst hrun
    exact .modify (derives_signed_of_none h) (.fails trivial)
  obtain ⟨o, hderives, ho⟩ := ReadsInteger.of_checked hnone
    (fun hne => Grammar.Ascii.munches_signed.derives_slice (h.isLongest hne))
    (Grammar.Ascii.toSigned_eq h)
  exact ⟨o, Grammar.Standalone.yields ⟨trivial, trivial⟩ hderives, ho⟩

theorem ReadsInteger.eq_success {wrap : Int → Tree} {low high : Int} {o : Outcome w Tree}
    (h : ReadsInteger wrap low high c s run o) (hne : run ≠ []) (hlow : low ≤ integer s run)
    (hhigh : integer s run ≤ high) :
    o = .success (wrap (integer s run)) (c.advance (s ++ run).length) := by
  cases h with
  | missing hnil => exact absurd hnil hne
  | fits => rfl
  | tooLarge _ hlt => exact absurd hhigh (not_le.mpr hlt)
  | tooSmall _ hlt => exact absurd hlow (not_le.mpr hlt)

theorem isRow_before (hrun : ∀ e ∈ run, IsDigit e) (hd : ∀ e, d.element? = some e → ¬IsDigit e) :
    IsRow IsDigit run d.remaining :=
  ⟨hrun, fun _ _ hv => hd _ (Cursor.element?_of_remaining hv).1⟩

theorem unsigned_of_toString {n : Nat} (hn : n < 2 ^ 64)
    (hc : c.remaining = bytes (toString n) ++ d.remaining)
    (hd : ∀ e, d.element? = some e → ¬IsDigit e) :
    unsigned64.Yields c (.success (.unsigned64 n) d) := by
  have hrow : IsRow IsDigit (bytes n.repr) d.remaining :=
    isRow_before (fun _ => isDigit_of_mem_bytes_repr) hd
  obtain ⟨o, hyields, ho⟩ := exists_unsigned hc hrow
  have hvalue : integer [] (bytes (toString n)) = n := congrArg Nat.cast (natural_bytes_repr n)
  have ho' := ho.eq_success (bytes_repr_ne_nil n) (by omega) (by omega)
  rw [hvalue, Int.toNat_natCast, List.nil_append,
    Cursor.remaining_inj.mp (Cursor.remaining_advance hc)] at ho'
  exact ho' ▸ hyields

theorem signed_of_toString {n : Int} (hlow : -2 ^ 63 ≤ n) (hhigh : n < 2 ^ 63)
    (hc : c.remaining = bytes (toString n) ++ d.remaining)
    (hd : ∀ e, d.element? = some e → ¬IsDigit e) :
    signed64.Yields c (.success (.signed64 n) d) := by
  obtain ⟨s, run, htext, hs, hne, hrun, rfl⟩ := bytes_toString n
  rw [htext] at hc
  have hsign : s = [] ∧ (∀ e v, c.remaining = e :: v → e ∉ [43, 45]) ∨ ∃ e ∈ [43, 45], s = [e] := by
    rcases hs with rfl | rfl
    · obtain ⟨e, run, rfl⟩ := List.exists_cons_of_ne_nil hne
      have hdigit := hrun e List.mem_cons_self
      refine .inl ⟨rfl, fun e' v hv => ?_⟩
      rw [hc] at hv
      cases hv
      unfold IsDigit at hdigit
      simp
      omega
    · exact .inr ⟨45, by decide, rfl⟩
  have hinteger : IntegerText [43, 45] c.remaining s run d.remaining :=
    ⟨by rw [hc, List.append_assoc], hsign, isRow_before hrun hd⟩
  obtain ⟨o, hyields, ho⟩ := exists_signed hinteger
  have ho' := ho.eq_success hne hlow (by omega)
  rw [Cursor.remaining_inj.mp (Cursor.remaining_advance hc)] at ho'
  exact ho' ▸ hyields

/-- An unsigned integer is read from all digits at a place, and a signed one from a sign, if there
is one, and all digits after it. The text of a number of the type is read back to it wherever no
further digit follows. -/
theorem integers_read_exactly (c : Cursor w) :
    (∃ run rest o, c.remaining = run ++ rest ∧ IsRow IsDigit run rest ∧ unsigned64.Yields c o ∧
      ReadsInteger (fun n => .unsigned64 n.toNat) 0 (2 ^ 64 - 1) c [] run o) ∧
    (∃ s run rest o, IntegerText [43, 45] c.remaining s run rest ∧ signed64.Yields c o ∧
      ReadsInteger .signed64 (-2 ^ 63) (2 ^ 63 - 1) c s run o) ∧
    ∀ d : Cursor w, (∀ e, d.element? = some e → ¬IsDigit e) →
      (∀ n : Nat, n < 2 ^ 64 → c.remaining = bytes (toString n) ++ d.remaining →
        unsigned64.Yields c (.success (.unsigned64 n) d)) ∧
      ∀ n : Int, -2 ^ 63 ≤ n → n < 2 ^ 63 → c.remaining = bytes (toString n) ++ d.remaining →
        signed64.Yields c (.success (.signed64 n) d) := by
  obtain ⟨run, rest, hc, hrow⟩ := IsRow.exists_split IsDigit c.remaining
  obtain ⟨o, ho, hread⟩ := exists_unsigned hc hrow
  obtain ⟨s, run', rest', htext⟩ := IntegerText.exists_split [43, 45] c.remaining
  obtain ⟨o', ho', hread'⟩ := exists_signed htext
  refine ⟨⟨run, rest, o, hc, hrow, ho, hread⟩, ⟨s, run', rest', o', htext, ho', hread'⟩,
    fun d hd => ⟨fun n hn hn' => unsigned_of_toString hn hn' hd,
      fun n hlow hhigh hn => signed_of_toString hlow hhigh hn hd⟩⟩

/-- The first number that is too large for a signed integer is an unsigned one. -/
theorem integers_read_exactly_large :
    let w : Input := ⟨.byte, #[57, 50, 50, 51, 51, 55, 50, 48, 51, 54, 56, 53, 52, 55, 55, 53, 56,
      48, 56, 46], by decide⟩
    unsigned64.Yields (Cursor.start w) (.success (.unsigned64 9223372036854775808)
      ((Cursor.start w).advance 19)) ∧
    signed64.Yields (Cursor.start w) (.failure (.custom
      "invalid number '9223372036854775808': number too large to fit in target type" 0)) := by
  intro w
  obtain ⟨-, ⟨s, run, rest, o, htext, ho, hread⟩, hround⟩ :=
    integers_read_exactly (Cursor.start w)
  have hdot : ((Cursor.start w).advance 19).element? = some 46 := by decide
  have hend : ∀ e, ((Cursor.start w).advance 19).element? = some e → ¬IsDigit e := by
    rw [hdot]
    rintro _ ⟨⟩
    decide
  have hsplit : (Cursor.start w).remaining =
      bytes (toString 9223372036854775808) ++ ((Cursor.start w).advance 19).remaining := by
    decide +kernel
  refine ⟨(hround _ hend).1 9223372036854775808 (by decide) hsplit, ?_⟩
  have hnosign : ∀ e v, (Cursor.start w).remaining = e :: v → e ∉ [43, 45] := by
    intro e v hv
    have hnine : (Cursor.start w).element? = some 57 := by decide
    obtain rfl := Option.some.inj (hnine.symm.trans (Cursor.element?_of_remaining hv).1)
    decide
  have hnumber : IntegerText [43, 45] (Cursor.start w).remaining []
      (bytes (toString 9223372036854775808)) ((Cursor.start w).advance 19).remaining :=
    ⟨hsplit, .inl ⟨rfl, hnosign⟩, isRow_before (fun _ => isDigit_of_mem_bytes_repr) hend⟩
  obtain ⟨rfl, rfl⟩ := htext.unique hnumber
  have hvalue : integer [] (bytes (toString 9223372036854775808)) = 9223372036854775808 :=
    congrArg Nat.cast (natural_bytes_repr 9223372036854775808)
  cases hread with
  | missing hnil => exact absurd hnil (bytes_repr_ne_nil _)
  | fits _ _ hhigh =>
    rw [hvalue] at hhigh
    exact absurd hhigh (by decide)
  | tooLarge =>
    have hmessage : outOfRange ([] ++ bytes (toString 9223372036854775808)) "large" =
        "invalid number '9223372036854775808': number too large to fit in target type" := by
      decide +kernel
    exact hmessage ▸ ho
  | tooSmall _ hlow =>
    rw [hvalue] at hlow
    exact absurd hlow (by decide)

end

end Descent
