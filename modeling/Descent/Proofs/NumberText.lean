import Mathlib
import Descent.Proofs.Integers

namespace Descent
variable {w : Input}

open Decimal (natural integer)
open Grammar.Ascii (bytes float64 floatText isFloatText number signed64 toNumber toSigned)

namespace Words

def fraction : Language Int := oneOf [46] * digits

def exponent : Language Int := oneOf [101, 69] * sign * digits

def number : Language Int := sign * digits * (1 + fraction) * (1 + exponent)

theorem over_digits {set : List Int} (h : ∀ e ∈ set, ¬IsDigit e) : Over (· ∉ set) digits :=
  (Over.rows _).mono fun e he hmem => h e hmem he

theorem over_signed : Over (· ∉ [46, 101, 69]) (sign * digits) :=
  .mul ((Over.oneOf _).mono (by decide)).one_add (over_digits (by decide))

theorem over_fraction : Over (· ∉ [101, 69]) fraction :=
  .mul ((Over.oneOf _).mono (by decide)) (over_digits (by decide))

theorem begin_fraction : Begin (· ∈ [46]) fraction :=
  (Over.oneOf _).begin.mul (by rintro ⟨e, -, h⟩; cases h)

theorem over_mantissa : Over (· ∉ [101, 69]) (sign * digits * (1 + fraction)) :=
  .mul (over_signed.mono fun _ he hmem => he (List.mem_cons_of_mem _ hmem)) over_fraction.one_add

theorem over_exponent : Over (· ∉ [46]) exponent :=
  .mul (.mul ((Over.oneOf _).mono (by decide)) ((Over.oneOf _).mono (by decide)).one_add)
    (over_digits (by decide))

theorem begin_exponent : Begin (· ∈ [101, 69]) exponent := by
  have hmark : Begin (· ∈ [101, 69]) (oneOf [101, 69]) := (Over.oneOf _).begin
  have hne : [] ∉ oneOf [101, 69] := by
    rintro ⟨e, -, h⟩
    cases h
  rw [exponent, mul_assoc]
  exact hmark.mul hne

theorem signed_le_number {x : List Int} (h : x ∈ sign * digits) : x ∈ number := by
  have hmantissa : x ++ [] ∈ sign * digits * (1 + fraction) := Language.append_mem_mul h (.inl rfl)
  have hnumber : x ++ [] ++ [] ∈ number := Language.append_mem_mul hmantissa (.inl rfl)
  rwa [List.append_nil, List.append_nil] at hnumber

theorem exists_tail {xs ys pre v : List Int} {e : Int} (h : xs ++ ys = pre ++ e :: v) (he : e ∉ xs) :
    ∃ between, ys = between ++ e :: v := by
  rcases List.append_eq_append_iff.mp h with ⟨between, -, hys⟩ | ⟨between, rfl, hv⟩
  · exact ⟨between, hys⟩
  · cases between with
    | nil => exact ⟨[], hv.symm⟩
    | cons a between =>
      obtain ⟨rfl, -⟩ := List.cons.inj hv
      exact absurd (by simp) he

theorem tail_eq {a e : Int} {x pre v : List Int} (h : a :: x = pre ++ e :: v) (he : e ∉ x) :
    x = v := by
  cases pre with
  | nil => exact (List.cons.inj h).2
  | cons b pre =>
    rw [(List.cons.inj h).2] at he
    exact absurd (by simp) he

theorem digits_after_point {x pre v : List Int} (hx : x ∈ number) (h : x = pre ++ 46 :: v) :
    ∃ y ∈ digits, y <+: v := by
  obtain ⟨b, hb, e, he, rfl⟩ := Language.mem_mul.mp hx
  obtain ⟨a, ha, f, hf, rfl⟩ := Language.mem_mul.mp hb
  have ha' : 46 ∉ a := fun hmem => over_signed a ha 46 hmem (by decide)
  have he' : 46 ∉ e := fun hmem => over_exponent.one_add e he 46 hmem (List.mem_singleton_self _)
  rw [List.append_assoc] at h
  obtain ⟨between, hfe⟩ := exists_tail h ha'
  rcases hf with rfl | hf
  · have hmem : 46 ∈ between ++ 46 :: v := by simp
    rw [← hfe] at hmem
    exact absurd hmem he'
  · obtain ⟨_, ⟨k, -, rfl⟩, y, hy, rfl⟩ := Language.mem_mul.mp hf
    have hy' : 46 ∉ y := fun hmem => over_digits (by decide) y hy 46 hmem (List.mem_singleton_self _)
    refine ⟨y, hy, ?_⟩
    rw [← tail_eq (x := y ++ e) hfe (by simp [hy', he'])]
    exact List.prefix_append y e

theorem signed_after_mark {x pre v : List Int} {mark : Int} (hmark : mark ∈ [101, 69])
    (hx : x ∈ number) (h : x = pre ++ mark :: v) : ∃ y ∈ sign * digits, y <+: v := by
  obtain ⟨a, ha, e, he, rfl⟩ := Language.mem_mul.mp hx
  obtain ⟨between, hbetween⟩ := exists_tail h fun hmem => over_mantissa a ha mark hmem hmark
  rcases he with rfl | he
  · exact absurd hbetween.symm (by simp)
  · rw [exponent, mul_assoc] at he
    obtain ⟨_, ⟨k, -, rfl⟩, z, hz, rfl⟩ := Language.mem_mul.mp he
    have hzv : z = v :=
      tail_eq hbetween fun hmem => over_signed z hz mark hmem (List.mem_cons_of_mem _ hmark)
    exact ⟨z, hz, hzv ▸ List.prefix_refl z⟩

theorem mem_signed_of_plain {x : List Int} (hx : x ∈ number) (h : ∀ e ∈ x, e ∉ [46, 101, 69]) :
    x ∈ sign * digits := by
  obtain ⟨b, hb, e, he, rfl⟩ := Language.mem_mul.mp hx
  obtain ⟨a, ha, f, hf, rfl⟩ := Language.mem_mul.mp hb
  rcases hf with rfl | hf
  · rcases he with rfl | he
    · rwa [List.append_nil, List.append_nil]
    · rw [exponent, mul_assoc] at he
      obtain ⟨_, ⟨k, hk, rfl⟩, z, -, rfl⟩ := Language.mem_mul.mp he
      exact absurd (List.mem_cons_of_mem _ hk) (h k (by simp))
  · obtain ⟨_, ⟨k, hk, rfl⟩, y, -, rfl⟩ := Language.mem_mul.mp hf
    rw [List.mem_singleton] at hk
    exact absurd (by simp [hk]) (h k (by simp))

end Words

namespace Grammar.Ascii

theorem munches_fraction : fractionPart.Munches Words.fraction := by
  have hpoint (w : Input) : ∃ refusal, Terminal.Reads w (.is 46) (· ∈ [46]) refusal := by
    simp only [List.mem_singleton]
    exact ⟨_, .is⟩
  have hdigits : Apart (Words.oneOf [46]) Words.digits :=
    .of_begin ((Words.Over.oneOf _).mono (by decide)) Words.begin_digits
  exact ((Munches.terminal hpoint).andThen munches_digits hdigits).ignore

theorem munches_exponent : exponentPart.Munches Words.exponent := by
  have hbytes : bytes "eE" = [101, 69] := by decide +kernel
  have hmark (w : Input) :
      ∃ refusal, Terminal.Reads w (.oneOf (bytes "eE")) (· ∈ [101, 69]) refusal := by
    rw [hbytes]
    exact ⟨_, .oneOf⟩
  have hsign : Apart (Words.oneOf [101, 69]) Words.sign :=
    .of_begin ((Words.Over.oneOf _).mono (by decide)) (Words.Over.oneOf [43, 45]).begin.one_add
  have hdigits : Apart (Words.oneOf [101, 69] * Words.sign) Words.digits :=
    .of_begin (((Words.Over.oneOf _).mono (by decide)).mul Words.over_sign) Words.begin_digits
  exact (((Munches.terminal hmark).andThen munches_sign hsign).andThen munches_digits
    hdigits).ignore

/-- What `floatText` recognizes. -/
theorem munches_number : (((sign.andThen digits).andThen fractionPart.optional).andThen
    exponentPart.optional).Munches Words.number := by
  have hpoint : Words.Over (· ∉ [46]) (Words.sign * Words.digits) :=
    Words.over_signed.mono fun _ he hmem => he (by simp [List.mem_singleton.mp hmem])
  have hfraction : Apart (Words.sign * Words.digits) (1 + Words.fraction) :=
    .of_begin hpoint Words.begin_fraction.one_add
  exact (munches_signed.andThen munches_fraction.optional hfraction).andThen
    munches_exponent.optional (.of_begin Words.over_mantissa Words.begin_exponent.one_add)

theorem isFloatText_eq_false_iff {x : List Int} (hx : x ∈ Words.number) :
    isFloatText x = false ↔ x ∈ Words.sign * Words.digits := by
  have hbytes : bytes ".eE" = [46, 101, 69] := by decide +kernel
  rw [isFloatText, hbytes, List.any_eq_false]
  constructor
  · intro h
    exact Words.mem_signed_of_plain hx fun e he => by simpa using h e he
  · intro h e he
    simpa using Words.over_signed x h e he

end Grammar.Ascii

/-- How the text of an integer, an integer, a floating-point number and a number of either kind are
read at `c`. -/
inductive NumbersRead (c : Cursor w) :
    Outcome w Tree → Outcome w Tree → Outcome w Tree → Outcome w Tree → Prop
  /-- There is no text of a number, which is found out at `c` or after a sign. -/
  | missing {s rest} : (∀ x ∈ Words.number, ¬x <+: c.remaining) →
      IntegerText [43, 45] c.remaining s [] rest →
      NumbersRead c (.failure (c.advance s.length).noDigit) (.failure (c.advance s.length).noDigit)
        (.failure (c.advance s.length).noDigit) (.failure (c.advance s.length).noDigit)
  /-- Integers are read from the longest text of an integer, and the others from the longest text
  of a number. -/
  | found {x y} : IsLongest Words.number c.remaining x →
      IsLongest (Words.sign * Words.digits) c.remaining y →
      NumbersRead c (.success (.slice y) (c.advance y.length))
        (.converted c (c.advance y.length) (toSigned (.slice y)))
        (.success (.float64 (Decimal.readFloat x)) (c.advance x.length))
        (.converted c (c.advance x.length) (toNumber (.slice x)))

theorem IntegerText.position_after_sign {c : Cursor w} {s run rest : List Int}
    (h : IntegerText [43, 45] c.remaining s run rest) :
    (c.advance s.length).position = c.position ∨
      (∃ e ∈ [43, 45], c.element? = some e) ∧ (c.advance s.length).position = c.position + 1 := by
  rcases h.sign with ⟨rfl, -⟩ | ⟨e, he, rfl⟩
  · rw [List.length_nil, Cursor.advance_zero]
    exact .inl rfl
  · have helement := (Cursor.element?_of_remaining h.split).1
    exact .inr ⟨⟨e, he, helement⟩, Cursor.next_position_of_element? helement⟩

namespace Grammar.Ascii

theorem standalone_signed : (sign.andThen digits).recognize.Standalone := ⟨trivial, trivial⟩

theorem standalone_floatText : floatText.Standalone :=
  ⟨⟨⟨trivial, trivial⟩, trivial, trivial⟩, ⟨trivial, trivial⟩, trivial⟩

theorem exists_numbersRead (c : Cursor w) : ∃ text int float num,
    (sign.andThen digits).recognize.Yields c text ∧ signed64.Yields c int ∧ float64.Yields c float ∧
      number.Yields c num ∧ NumbersRead c text int float num := by
  have hint : signed64.Standalone := standalone_signed
  have hfloat : float64.Standalone := standalone_floatText
  have hnum : number.Standalone := standalone_floatText
  obtain ⟨s, run, rest, h⟩ := IntegerText.exists_split [43, 45] c.remaining
  obtain ⟨o, ho, hlongest⟩ := munches_number w c
  by_cases hne : run = []
  · subst hne
    have hnone := derives_signed_of_none h
    have hinner := ho.unique (.sequenceFails (.sequenceFails hnone))
    rw [hinner] at ho hlongest
    have htext : Derives [] [] (sign.andThen digits).recognize c _ := .modify hnone (.fails trivial)
    have hfloatText : Derives [] [] floatText c _ := .modify ho (.fails trivial)
    cases hlongest with
    | missing hnumber =>
      exact ⟨_, _, _, _, standalone_signed.yields htext, hint.yields (htext.not_converted toSigned),
        hfloat.yields (hfloatText.not_converted toFloat),
        hnum.yields (hfloatText.not_converted toNumber), .missing hnumber h⟩
  · have hy := h.isLongest hne
    cases hlongest with
    | missing hnumber => exact absurd hy.isPrefix (hnumber _ (Words.signed_le_number hy.mem))
    | found hx =>
      have htext := munches_signed.derives_slice hy
      have hfloatText : Derives [] [] floatText c _ := munches_number.derives_slice hx
      have hconverted := hfloatText.converted toFloat
      rw [toFloat, Tree.elements_slice] at hconverted
      exact ⟨_, _, _, _, standalone_signed.yields htext, hint.yields (htext.converted toSigned),
        hfloat.yields hconverted, hnum.yields (hfloatText.converted toNumber), .found hx hy⟩

end Grammar.Ascii

/-- A floating-point number is read exactly where there is text of a number, and the longest such
text is read. A point without digits after it is left alone, and so is an exponent mark without
digits after it or after a sign that follows it. Numbers of either kind have the same text, and the
same error where there is none. -/
theorem numbers_read_longest_text (c : Cursor w) : ∃ float num, float64.Yields c float ∧
    number.Yields c num ∧
    ((∃ v d, float = .success v d) ↔ ∃ x ∈ Words.number, x <+: c.remaining) ∧
    (∀ v d, float = .success v d → ∃ x, v = .float64 (Decimal.readFloat x) ∧
      IsLongest Words.number c.remaining x ∧ d.position = c.position + x.length ∧
      num = .converted c d (toNumber (.slice x)) ∧
      (∀ pre u, c.remaining = pre ++ 46 :: u → (∀ y ∈ Words.digits, ¬y <+: u) → x <+: pre) ∧
      ∀ pre mark u, mark ∈ [101, 69] → c.remaining = pre ++ mark :: u →
        (∀ y ∈ Words.sign * Words.digits, ¬y <+: u) → x <+: pre) ∧
    ∀ e, float = .failure e → num = .failure e ∧ (e.position = c.position ∨
      (∃ s ∈ [43, 45], c.element? = some s) ∧ e.position = c.position + 1) := by
  obtain ⟨text, int, float, num, -, -, hfloat, hnum, hread⟩ := Grammar.Ascii.exists_numbersRead c
  refine ⟨float, num, hfloat, hnum, ?_⟩
  cases hread with
  | missing hnone h =>
    refine ⟨iff_of_false ?_ ?_, ?_, ?_⟩
    · rintro ⟨v, d, ⟨⟩⟩
    · rintro ⟨x, hx, hbegins⟩
      exact hnone x hx hbegins
    · rintro v d ⟨⟩
    · rintro _ ⟨⟩
      rw [Cursor.noDigit_position]
      exact ⟨rfl, h.position_after_sign⟩
  | @found x y hx hy =>
    refine ⟨iff_of_true ⟨_, _, rfl⟩ ⟨x, hx.mem, hx.isPrefix⟩, ?_, ?_⟩
    · rintro _ _ ⟨⟩
      refine ⟨x, rfl, hx, Cursor.advance_position_of_isPrefix hx.isPrefix, rfl, ?_, ?_⟩
      · intro pre u hc hnone
        rw [hc] at hx
        refine hx.prefix_before fun v hv hvu => ?_
        obtain ⟨y, hy, hyv⟩ := Words.digits_after_point hv rfl
        exact hnone y hy (hyv.trans hvu)
      · intro pre mark u hmark hc hnone
        rw [hc] at hx
        refine hx.prefix_before fun v hv hvu => ?_
        obtain ⟨y, hy, hyv⟩ := Words.signed_after_mark hmark hv rfl
        exact hnone y hy (hyv.trans hvu)
    · rintro _ ⟨⟩

theorem numbers_read_longest_text_dangling :
    let w : Input := ⟨.byte, #[49, 50, 101, 43], by decide⟩
    float64.Yields (Cursor.start w)
      (.success (.float64 (Decimal.readFloat [49, 50])) ((Cursor.start w).advance 2)) := by
  intro w
  obtain ⟨float, num, hfloat, -, hiff, hfound, -⟩ := numbers_read_longest_text (Cursor.start w)
  have hremaining : (Cursor.start w).remaining = [49, 50] ++ 101 :: [43] := by decide
  have htwelve : [49, 50] ∈ Words.number := by
    have hnil : [] ∈ Words.sign := .inl rfl
    have hdigits : [49, 50] ∈ Words.digits := ⟨by decide, by decide⟩
    exact Words.signed_le_number (Language.append_mem_mul hnil hdigits)
  obtain ⟨v, d, rfl⟩ := hiff.mpr ⟨_, htwelve, hremaining ▸ List.prefix_append _ _⟩
  obtain ⟨x, rfl, hx, hposition, -, -, hmark⟩ := hfound v d rfl
  have hnone : ∀ y ∈ Words.sign * Words.digits, ¬y <+: [43] := by
    rintro _ ⟨s, -, y, hy, rfl⟩ hbegins
    obtain ⟨e, he⟩ := List.exists_mem_of_ne_nil y hy.1
    have hplus : e = 43 := List.mem_singleton.mp (hbegins.subset (List.mem_append_right s he))
    exact absurd (hy.2 e he) (hplus ▸ by decide)
  have hpre := hmark _ _ _ (by decide) hremaining hnone
  have hx' := hx.longest _ htwelve (hremaining ▸ List.prefix_append _ _)
  obtain rfl := hpre.eq_of_length_le hx'.length_le
  have hd : d = (Cursor.start w).advance 2 := Cursor.ext hposition
  exact hd ▸ hfloat

namespace Grammar.Ascii

theorem toSigned_cases (t : Tree) :
    (∃ n, toSigned t = .ok (.signed64 n)) ∨ ∃ reason, toSigned t = .error reason := by
  unfold toSigned
  cases Decimal.readSigned t.elements with
  | ok n => exact .inl ⟨n, rfl⟩
  | error e => exact .inr ⟨_, rfl⟩

theorem toNumber_of_float {x : List Int} (h : isFloatText x = true) :
    toNumber (.slice x) = .ok (.tagged "number" (.float64 (Decimal.readFloat x))) := by
  rw [toNumber, Tree.elements_slice, if_pos h, toFloat, Tree.elements_slice]
  rfl

theorem toNumber_of_integer {x : List Int} (h : isFloatText x = false) :
    toNumber (.slice x) = (toSigned (.slice x)).map (.tagged "number") := by
  rw [toNumber, Tree.elements_slice, h, if_neg (by decide)]

end Grammar.Ascii

theorem IsLongest.integer_or_longer {text x y : List Int} (hx : IsLongest Words.number text x)
    (hy : IsLongest (Words.sign * Words.digits) text y) :
    x = y ∧ isFloatText x = false ∨ y.length < x.length ∧ isFloatText x = true := by
  have hyx := hx.longest y (Words.signed_le_number hy.mem) hy.isPrefix
  have hinteger := Grammar.Ascii.isFloatText_eq_false_iff hx.mem
  cases hfloat : isFloatText x with
  | false =>
    have hxy := hy.longest x (hinteger.mp hfloat) hx.isPrefix
    exact .inl ⟨hxy.eq_of_length_le hyx.length_le, rfl⟩
  | true =>
    refine .inr ⟨Nat.lt_of_le_of_ne hyx.length_le fun heq => ?_, rfl⟩
    rw [hinteger.mpr (hyx.eq_of_length heq ▸ hy.mem)] at hfloat
    cases hfloat

/-- What the reading of a number of either kind has to do with that of an integer and of a
floating-point number at `c`. `text` is how the sign and digits of an integer are read. -/
structure NumbersAgree (c : Cursor w) (text int float num : Outcome w Tree) : Prop where
  integer_iff n e : num = .success (.tagged "number" (.signed64 n)) e ↔
    int = .success (.signed64 n) e ∧ ∃ v, float = .success v e
  float_iff b e : num = .success (.tagged "number" (.float64 b)) e ↔
    float = .success (.float64 b) e ∧ ∃ t d, text = .success t d ∧ d.position < e.position
  kinds v e : num = .success v e →
    (∃ n, v = .tagged "number" (.signed64 n)) ∨ ∃ b, v = .tagged "number" (.float64 b)
  /-- If the sign and digits are all that is read and their value does not fit, that is the error. -/
  overflow s run rest v : IntegerText [43, 45] c.remaining s run rest →
    float = .success v (c.advance (s ++ run).length) →
    integer s run < -2 ^ 63 ∨ 2 ^ 63 ≤ integer s run → ∃ e, int = .failure e ∧ num = .failure e
  none : (∀ x ∈ Words.number, ¬x <+: c.remaining) →
    ∃ e, int = .failure e ∧ float = .failure e ∧ num = .failure e
  /-- Whether text looks like a floating-point number tells whether a fraction or an exponent was
  read. -/
  classified t d v e : text = .success t d → float = .success v e →
    (isFloatText (e.sliceFrom c.position) = true ↔ d.position < e.position)

namespace NumbersAgree
variable {c : Cursor w} {x y : List Int}

theorem missing {e : ParseError} :
    NumbersAgree c (.failure e) (.failure e) (.failure e) (.failure e) where
  integer_iff _ _ := iff_of_false nofun fun h => nomatch h.1
  float_iff _ _ := iff_of_false nofun fun h => nomatch h.1
  kinds _ _ h := nomatch h
  overflow _ _ _ _ _ h := nomatch h
  none _ := ⟨e, rfl, rfl, rfl⟩
  classified _ _ _ _ h := nomatch h

theorem refused_of_overflow {text s run rest : List Int}
    (h : IntegerText [43, 45] text s run rest)
    (hvalue : integer s run < -2 ^ 63 ∨ 2 ^ 63 ≤ integer s run) :
    run ≠ [] ∧ ∃ reason, toSigned (.slice (s ++ run)) = .error reason := by
  constructor
  · rintro rfl
    have hzero : integer s [] = 0 := by simp [integer, natural]
    omega
  · rw [Grammar.Ascii.toSigned_eq h, Decimal.checked]
    rcases hvalue with hlow | hhigh
    · rw [if_pos hlow]
      exact ⟨_, rfl⟩
    · rw [if_neg (by omega), if_neg (by omega)]
      exact ⟨_, rfl⟩

theorem of_fits {n : Int} {v : Tree} (hx : IsLongest Words.number c.remaining x)
    (hplain : isFloatText x = false) (hn : toSigned (.slice x) = .ok (.signed64 n)) :
    NumbersAgree c (.success (.slice x) (c.advance x.length))
      (.success (.signed64 n) (c.advance x.length)) (.success v (c.advance x.length))
      (.success (.tagged "number" (.signed64 n)) (c.advance x.length)) where
  integer_iff m e := by
    constructor
    · rintro ⟨⟩
      exact ⟨rfl, v, rfl⟩
    · rintro ⟨⟨⟩, -⟩
      rfl
  float_iff b e := by
    refine iff_of_false nofun ?_
    rintro ⟨⟨⟩, t, d, ⟨⟩, hlt⟩
    exact Nat.lt_irrefl _ hlt
  kinds _ _ := by
    rintro ⟨⟩
    exact .inl ⟨n, rfl⟩
  overflow s run rest v' h hend hvalue := by
    obtain ⟨-, reason, hreason⟩ := refused_of_overflow h hvalue
    have hbegins : s ++ run <+: c.remaining := ⟨rest, by rw [h.split, List.append_assoc]⟩
    rw [← Cursor.eq_of_advance_eq hx.isPrefix hbegins (Outcome.success.inj hend).2, hn] at hreason
    cases hreason
  none hnone := absurd hx.isPrefix (hnone x hx.mem)
  classified := by
    rintro _ _ _ _ ⟨⟩ ⟨⟩
    rw [Cursor.sliceFrom_of_isPrefix hx.isPrefix, hplain]
    simp

theorem of_refused {e : ParseError} {v : Tree} (hx : IsLongest Words.number c.remaining x)
    (hplain : isFloatText x = false) :
    NumbersAgree c (.success (.slice x) (c.advance x.length)) (.failure e)
      (.success v (c.advance x.length)) (.failure e) where
  integer_iff _ _ := iff_of_false nofun fun h => nomatch h.1
  float_iff b e := by
    refine iff_of_false nofun ?_
    rintro ⟨⟨⟩, t, d, ⟨⟩, hlt⟩
    exact Nat.lt_irrefl _ hlt
  kinds _ _ h := nomatch h
  overflow _ _ _ _ _ _ _ := ⟨e, rfl, rfl⟩
  none hnone := absurd hx.isPrefix (hnone x hx.mem)
  classified := by
    rintro _ _ _ _ ⟨⟩ ⟨⟩
    rw [Cursor.sliceFrom_of_isPrefix hx.isPrefix, hplain]
    simp

theorem of_float {b : Nat} {f : Tree → Except String Tree} (hx : IsLongest Words.number c.remaining x)
    (hy : IsLongest (Words.sign * Words.digits) c.remaining y) (hlt : y.length < x.length)
    (hfloat : isFloatText x = true) :
    NumbersAgree c (.success (.slice y) (c.advance y.length))
      (.converted c (c.advance y.length) (f (.slice y)))
      (.success (.float64 b) (c.advance x.length))
      (.success (.tagged "number" (.float64 b)) (c.advance x.length)) := by
  have hadvance : (c.advance y.length).position < (c.advance x.length).position := by
    rw [Cursor.advance_position_of_isPrefix hx.isPrefix,
      Cursor.advance_position_of_isPrefix hy.isPrefix]
    omega
  constructor
  case integer_iff =>
    intro n e
    refine iff_of_false nofun ?_
    rintro ⟨hint, v, ⟨⟩⟩
    cases hf : f (.slice y) with
    | ok t =>
      rw [hf] at hint
      rw [(Outcome.success.inj hint).2] at hadvance
      exact Nat.lt_irrefl _ hadvance
    | error reason =>
      rw [hf] at hint
      cases hint
  case float_iff =>
    intro b' e
    constructor
    · rintro ⟨⟩
      exact ⟨rfl, _, _, rfl, hadvance⟩
    · rintro ⟨⟨⟩, -⟩
      rfl
  case kinds =>
    rintro _ _ ⟨⟩
    exact .inr ⟨b, rfl⟩
  case overflow =>
    -- No more than the integer would have been read, but the number is longer.
    intro s run rest v h hend hvalue
    have hz := h.isLongest (refused_of_overflow h hvalue).1
    have hxz := Cursor.eq_of_advance_eq hx.isPrefix hz.isPrefix (Outcome.success.inj hend).2
    rw [hxz, hy.unique hz] at hlt
    exact absurd hlt (Nat.lt_irrefl _)
  case none => exact fun hnone => absurd hx.isPrefix (hnone x hx.mem)
  case classified =>
    rintro _ _ _ _ ⟨⟩ ⟨⟩
    rw [Cursor.sliceFrom_of_isPrefix hx.isPrefix]
    exact iff_of_true hfloat hadvance

end NumbersAgree

theorem NumbersRead.agree {c : Cursor w} {text int float num : Outcome w Tree}
    (h : NumbersRead c text int float num) : NumbersAgree c text int float num := by
  cases h with
  | missing => exact .missing
  | @found x y hx hy =>
    rcases hx.integer_or_longer hy with ⟨rfl, hplain⟩ | ⟨hlt, hfloat⟩
    · rw [Grammar.Ascii.toNumber_of_integer hplain]
      rcases Grammar.Ascii.toSigned_cases (.slice x) with ⟨n, hn⟩ | ⟨reason, hreason⟩
      · rw [hn]
        exact .of_fits hx hplain hn
      · rw [hreason]
        exact .of_refused hx hplain
    · rw [Grammar.Ascii.toNumber_of_float hfloat]
      exact .of_float hx hy hlt hfloat

/-- A number of either kind is an integer where an integer is read as far as a floating-point number
is, and otherwise a floating-point number. -/
theorem numbers_agree (c : Cursor w) : ∃ text int float num,
    (Grammar.Ascii.sign.andThen Grammar.Ascii.digits).recognize.Yields c text ∧
      signed64.Yields c int ∧ float64.Yields c float ∧ number.Yields c num ∧
      NumbersAgree c text int float num := by
  obtain ⟨text, int, float, num, htext, hint, hfloat, hnum, hread⟩ :=
    Grammar.Ascii.exists_numbersRead c
  exact ⟨text, int, float, num, htext, hint, hfloat, hnum, hread.agree⟩

theorem numbers_agree_overflow :
    let w : Input := ⟨.byte, Array.replicate 20 57, by decide⟩
    (∃ v d, float64.Yields (Cursor.start w) (.success v d)) ∧
      ∃ e, signed64.Yields (Cursor.start w) (.failure e) ∧
        number.Yields (Cursor.start w) (.failure e) := by
  intro w
  obtain ⟨text, int, float, num, -, hint, hfloat, hnum, hagree⟩ := numbers_agree (Cursor.start w)
  obtain ⟨_, _, float', _, -, -, hfloat', -, hread⟩ :=
    Grammar.Ascii.exists_numbersRead (Cursor.start w)
  obtain rfl := hfloat'.unique hfloat
  have hremaining : (Cursor.start w).remaining = List.replicate 20 57 := by decide
  have htext : IntegerText [43, 45] (Cursor.start w).remaining [] (List.replicate 20 57) [] := by
    rw [hremaining]
    refine ⟨by decide, .inl ⟨rfl, ?_⟩, by decide, nofun⟩
    rintro e v hv
    obtain rfl : 57 = e := congrArg List.head! hv
    decide
  have hvalue : (2 : Int) ^ 63 ≤ integer [] (List.replicate 20 57) := by decide +kernel
  have hnines := htext.isLongest (by decide)
  cases hread with
  | missing hnone => exact absurd hnines.isPrefix (hnone _ (Words.signed_le_number hnines.mem))
  | @found x y hx hy =>
    have hle := hx.longest _ (Words.signed_le_number hnines.mem) hnines.isPrefix
    have hge : x <+: [] ++ List.replicate 20 57 := by
      rw [List.nil_append, ← hremaining]
      exact hx.isPrefix
    obtain rfl := hge.eq_of_length_le hle.length_le
    obtain ⟨e, rfl, rfl⟩ := hagree.overflow [] _ [] _ htext rfl (.inr hvalue)
    exact ⟨⟨_, _, hfloat⟩, e, hint, hnum⟩

end Descent
