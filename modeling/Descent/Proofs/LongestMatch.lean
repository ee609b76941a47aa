import Mathlib
import Descent.Proofs.Adequacy
import Descent.Proofs.Spelling

namespace Descent
variable {w : Input}

namespace Words
variable {L M : Language Int} {P Q : Int → Prop}

/-- The words of one element of `set`. -/
def oneOf (set : List Int) : Language Int := {x | ∃ e ∈ set, x = [e]}

/-- The words of one or more elements that satisfy `accepts`. -/
def rows (accepts : Int → Prop) : Language Int := {x | x ≠ [] ∧ ∀ e ∈ x, accepts e}

def Over (P : Int → Prop) (L : Language Int) : Prop := ∀ x ∈ L, ∀ e ∈ x, P e

/-- Words of `L` begin with elements that satisfy `P`. -/
def Begin (P : Int → Prop) (L : Language Int) : Prop := ∀ e x, e :: x ∈ L → P e

namespace Over

theorem oneOf (set : List Int) : Over (· ∈ set) (oneOf set) := by
  rintro _ ⟨e, he, rfl⟩ a ha
  rwa [List.mem_singleton.mp ha]

theorem rows (accepts : Int → Prop) : Over accepts (rows accepts) := fun _ hx => hx.2

theorem one_add (h : Over P L) : Over P (1 + L) := by
  rintro x (rfl | hx) e he
  · cases he
  · exact h x hx e he

theorem mul (h : Over P L) (h' : Over P M) : Over P (L * M) := by
  rintro _ ⟨x, hx, y, hy, rfl⟩ e he
  rcases List.mem_append.mp he with hmem | hmem
  · exact h x hx e hmem
  · exact h' y hy e hmem

theorem mono (h : Over P L) (hPQ : ∀ e, P e → Q e) : Over Q L := fun x hx e he => hPQ e (h x hx e he)

theorem begin (h : Over P L) : Begin P L := fun e x hx => h (e :: x) hx e List.mem_cons_self

end Over

namespace Begin

theorem one_add (h : Begin P L) : Begin P (1 + L) := by
  rintro e x (hnil | hx)
  · cases hnil
  · exact h e x hx

theorem mul (h : Begin P L) (hne : [] ∉ L) : Begin P (L * M) := by
  rintro e _ ⟨x, hx, y, -, heq⟩
  cases x with
  | nil => exact absurd hx hne
  | cons a x =>
    obtain ⟨rfl, -⟩ := List.cons.inj heq
    exact h a x hx

end Begin

end Words

/-- No word of `L` contains an element with which a word of `M` begins. -/
def Apart (L M : Language Int) : Prop := Words.Over (fun a => ∀ v, a :: v ∉ M) L

theorem Apart.of_begin {L M : Language Int} {P : Int → Prop} (hL : Words.Over (¬P ·) L)
    (hM : Words.Begin P M) : Apart L M :=
  fun x hx e he v hv => hL x hx e he (hM e v hv)

theorem isPrefix_append_cases {x xs ys : List Int} (h : x <+: xs ++ ys) :
    x <+: xs ∨ ∃ a u, x = xs ++ a :: u ∧ a :: u <+: ys := by
  rcases List.prefix_or_prefix_of_prefix h (List.prefix_append xs ys) with hxs | ⟨u, rfl⟩
  · exact .inl hxs
  · cases u with
    | nil => exact .inl (by rw [List.append_nil])
    | cons a u => exact .inr ⟨a, u, rfl, (List.prefix_append_right_inj xs).mp h⟩

/-- `x` is the longest word of `L` with which `text` begins. -/
structure IsLongest (L : Language Int) (text x : List Int) : Prop where
  mem : x ∈ L
  isPrefix : x <+: text
  longest : ∀ y ∈ L, y <+: text → y <+: x

namespace IsLongest
variable {L M : Language Int} {text rest x y z : List Int}

theorem unique (hx : IsLongest L text x) (hy : IsLongest L text y) : x = y := by
  have h := hx.longest y hy.mem hy.isPrefix
  have h' := hy.longest x hx.mem hx.isPrefix
  exact h'.eq_of_length_le h.length_le

/-- A word of `L` and one of `M` after it either divide a text where the longest word of `L` does,
or the second is empty. -/
theorem divides (hx : IsLongest L (x ++ rest) x) (hLM : Apart L M) (hy : y ∈ L) (hz : z ∈ M)
    (h : y ++ z <+: x ++ rest) : y = x ∧ z <+: rest ∨ z = [] ∧ y <+: x := by
  have hyx := hx.longest y hy ((List.prefix_append y z).trans h)
  obtain ⟨u, rfl⟩ := hyx
  rw [List.append_assoc, List.prefix_append_right_inj] at h
  cases u with
  | nil => exact .inl ⟨(List.append_nil y).symm, h⟩
  | cons a u =>
    cases z with
    | nil => exact .inr ⟨rfl, List.prefix_append y _⟩
    | cons b z =>
      obtain ⟨rfl, -⟩ := List.cons_prefix_cons.mp h
      exact absurd hz (hLM _ hx.mem b (by simp) z)

/-- Where the rest of no word follows an element, the longest word does not reach it. -/
theorem prefix_before {pre v : List Int} {e : Int} (hx : IsLongest L (pre ++ e :: v) x)
    (h : ∀ u, pre ++ e :: u ∈ L → ¬u <+: v) : x <+: pre := by
  rcases isPrefix_append_cases hx.isPrefix with hpre | ⟨a, u, rfl, hau⟩
  · exact hpre
  · obtain ⟨rfl, hu⟩ := List.cons_prefix_cons.mp hau
    exact absurd hu (h u hx.mem)

theorem single {set : List Int} {e : Int} (he : e ∈ set) :
    IsLongest (Words.oneOf set) (e :: rest) [e] where
  mem := ⟨e, he, rfl⟩
  isPrefix := List.prefix_append [e] rest
  longest := by
    rintro _ ⟨a, -, rfl⟩ h
    rw [(List.cons_prefix_cons.mp h).1]

theorem one_add (hx : IsLongest L text x) : IsLongest (1 + L) text x where
  mem := .inr hx.mem
  isPrefix := hx.isPrefix
  longest := by
    rintro y (rfl | hy) h
    · exact List.nil_prefix
    · exact hx.longest y hy h

theorem nil (hnone : ∀ x ∈ L, ¬x <+: text) : IsLongest (1 + L) text [] where
  mem := .inl rfl
  isPrefix := List.nil_prefix
  longest := by
    rintro y (rfl | hy) h
    · exact List.nil_prefix
    · exact absurd h (hnone y hy)

theorem append (hx : IsLongest L (x ++ rest) x) (hz : IsLongest M rest z) (hLM : Apart L M) :
    IsLongest (L * M) (x ++ rest) (x ++ z) where
  mem := Language.append_mem_mul hx.mem hz.mem
  isPrefix := (List.prefix_append_right_inj x).mpr hz.isPrefix
  longest := by
    rintro _ ⟨y, hy, m, hm, rfl⟩ h
    rcases hx.divides hLM hy hm h with ⟨rfl, hm'⟩ | ⟨rfl, hyx⟩
    · exact (List.prefix_append_right_inj y).mpr (hz.longest m hm hm')
    · have hx' : y ++ [] <+: x := by rwa [List.append_nil]
      exact hx'.trans (List.prefix_append x z)

end IsLongest

theorem Words.not_isPrefix_of_oneOf {set text : List Int} (h : ∀ e v, text = e :: v → e ∉ set) :
    ∀ x ∈ oneOf set, ¬x <+: text := by
  rintro _ ⟨e, he, rfl⟩ ⟨v, hv⟩
  exact h e v hv.symm he

/-- At `c` the longest word of `L` is read, or there is none and the outcome is a failure. -/
inductive Outcome.Longest (L : Language Int) (c : Cursor w) : Outcome w Tree → Prop
  | found {x v} : IsLongest L c.remaining x → Longest L c (.success v (c.advance x.length))
  | missing {e} : (∀ x ∈ L, ¬x <+: c.remaining) → Longest L c (.failure e)

/-- `run` is the row of all elements in front of `rest` that satisfy `accepts`. -/
structure IsRow (accepts : Int → Prop) (run rest : List Int) : Prop where
  inside : ∀ e ∈ run, accepts e
  boundary : ∀ e v, rest = e :: v → ¬accepts e

namespace IsRow
variable {accepts : Int → Prop} {run rest : List Int}

theorem exists_split (accepts : Int → Prop) (text : List Int) :
    ∃ run rest, text = run ++ rest ∧ IsRow accepts run rest := by
  induction text with
  | nil => exact ⟨[], [], rfl, ⟨by simp, by simp⟩⟩
  | cons e text ih =>
    by_cases he : accepts e
    · obtain ⟨run, rest, rfl, hrow⟩ := ih
      exact ⟨e :: run, rest, rfl, ⟨List.forall_mem_cons.mpr ⟨he, hrow.inside⟩, hrow.boundary⟩⟩
    · refine ⟨[], e :: text, rfl, ⟨by simp, ?_⟩⟩
      rintro _ _ ⟨⟩
      exact he

theorem prefix_of_inside {x : List Int} (h : IsRow accepts run rest) (hx : ∀ e ∈ x, accepts e)
    (hbegins : x <+: run ++ rest) : x <+: run := by
  rcases isPrefix_append_cases hbegins with hrun | ⟨a, u, rfl, v, hv⟩
  · exact hrun
  · exact absurd (hx a (by simp)) (h.boundary a (u ++ v) hv.symm)

theorem unique {run' rest' : List Int} (h : IsRow accepts run rest) (h' : IsRow accepts run' rest')
    (heq : run ++ rest = run' ++ rest') : run = run' := by
  have hle := h.prefix_of_inside h'.inside (heq ▸ List.prefix_append run' rest')
  have hge := h'.prefix_of_inside h.inside (heq ▸ List.prefix_append run rest)
  exact hge.eq_of_length_le hle.length_le

theorem isLongest (h : IsRow accepts run rest) (hne : run ≠ []) :
    IsLongest (Words.rows accepts) (run ++ rest) run where
  mem := ⟨hne, h.inside⟩
  isPrefix := List.prefix_append run rest
  longest _ hy hbegins := h.prefix_of_inside hy.2 hbegins

end IsRow

namespace Terminal.Reads
variable {t : Terminal} {accepts : Int → Prop} {refusal : Int → Nat → ParseError} {c : Cursor w}
variable {run rest : List Int}

theorem matches_of_cons {e : Int} (h : Reads w t accepts refusal) (hc : c.remaining = e :: rest)
    (he : accepts e) : t.Matches c (.success (.element e) c.next) :=
  .accept h (Cursor.element?_of_remaining hc).1 he

theorem exists_failure (h : Reads w t accepts refusal)
    (hc : ∀ e v, c.remaining = e :: v → ¬accepts e) : ∃ err, t.Matches c (.failure err) := by
  cases hx : c.element? with
  | none => exact ⟨_, .ended h hx⟩
  | some x => exact ⟨_, .refuse h hx (hc x _ (Cursor.remaining_of_element? hx))⟩

theorem repeats (h : Reads w t accepts refusal) (hc : c.remaining = run ++ rest)
    (hrow : IsRow accepts run rest) {min n : Nat} (hmin : min ≤ n + run.length) :
    Repeats t.Matches min none n c (.success (run.map .element) (c.advance run.length)) := by
  induction run generalizing c n with
  | nil =>
    rw [List.nil_append] at hc
    obtain ⟨err, herr⟩ := h.exists_failure (hc ▸ hrow.boundary)
    rw [List.length_nil, Cursor.advance_zero]
    exact .enough (by simp) herr hmin
  | cons e run ih =>
    obtain ⟨he, hrun⟩ := List.forall_mem_cons.mp hrow.inside
    obtain ⟨helement, hnext⟩ := Cursor.element?_of_remaining hc
    have hadvance := Cursor.next_position_of_element? helement
    have hmin' : min ≤ n + 1 + run.length := by
      rw [List.length_cons] at hmin
      omega
    have hmore := ih hnext ⟨hrun, hrow.boundary⟩ hmin'
    rw [Cursor.next_advance] at hmore
    exact .more (by simp) (h.matches_of_cons hc he) (.inr (.inr (by omega))) hmore

variable {rules : List (String × Grammar)} {frames : Frames}

theorem derives_some (h : Reads w t accepts refusal) (hc : c.remaining = run ++ rest)
    (hrow : IsRow accepts run rest) (hne : run ≠ []) :
    Derives rules frames (Grammar.terminal t).some c
      (.success (.list (run.map .element)) (c.advance run.length)) := by
  have hlength := List.length_pos_iff.mpr hne
  exact .repeated (fun _ _ h => .terminal h) (h.repeats hc hrow (by omega))

end Terminal.Reads

theorem Terminal.Matches.derives_some_of_failure {rules : List (String × Grammar)} {frames : Frames}
    {t : Terminal} {c : Cursor w} {e : ParseError} (h : t.Matches c (.failure e)) :
    Derives rules frames (Grammar.terminal t).some c (.failure e) :=
  .repeated (fun _ _ h => .terminal h) (.nothing (by simp) h Nat.one_pos)

namespace Grammar

/-- Everywhere the grammar reads the longest word of `L`. -/
def Munches (g : Grammar) (L : Language Int) : Prop :=
  ∀ (w : Input) (c : Cursor w), ∃ o, Derives [] [] g c o ∧ o.Longest L c

namespace Munches
variable {g h : Grammar} {L M : Language Int}

theorem terminal {t : Terminal} {set : List Int}
    (ht : ∀ w, ∃ refusal, Terminal.Reads w t (· ∈ set) refusal) :
    (Grammar.terminal t).Munches (Words.oneOf set) := by
  intro w c
  obtain ⟨refusal, hr⟩ := ht w
  by_cases hc : ∃ e ∈ set, ∃ v, c.remaining = e :: v
  · obtain ⟨e, he, v, hc⟩ := hc
    exact ⟨_, .terminal (hr.matches_of_cons hc he), .found (x := [e]) (hc ▸ .single he)⟩
  · have hnone : ∀ e v, c.remaining = e :: v → e ∉ set := fun e v hv he => hc ⟨e, he, v, hv⟩
    obtain ⟨err, herr⟩ := hr.exists_failure hnone
    exact ⟨_, .terminal herr, .missing (Words.not_isPrefix_of_oneOf hnone)⟩

theorem row {t : Terminal} {accepts : Int → Prop}
    (ht : ∀ w, ∃ refusal, Terminal.Reads w t accepts refusal) :
    (Grammar.terminal t).some.Munches (Words.rows accepts) := by
  intro w c
  obtain ⟨refusal, hr⟩ := ht w
  obtain ⟨run, rest, hc, hrow⟩ := IsRow.exists_split accepts c.remaining
  by_cases hne : run = []
  · obtain ⟨err, herr⟩ := hr.exists_failure (c := c) (by simpa [hc, hne] using hrow.boundary)
    refine ⟨_, herr.derives_some_of_failure, .missing ?_⟩
    rintro x ⟨hx, haccepts⟩ hbegins
    have hrun := hrow.prefix_of_inside haccepts (hc ▸ hbegins)
    rw [hne, List.prefix_nil] at hrun
    exact hx hrun
  · exact ⟨_, hr.derives_some hc hrow hne, .found (hc ▸ hrow.isLongest hne)⟩

theorem literal (codes : List Int) : (Grammar.literal codes).Munches {codes} := by
  intro w c
  obtain ⟨o, ho⟩ := Spells.exists_outcome codes codes c
  refine ⟨_, .terminal (.literal ho), ?_⟩
  by_cases hc : codes <+: c.remaining
  · rw [ho.eq_spell, Cursor.spell, getElem?_agreement_eq_none_iff.mpr hc]
    refine .found ⟨rfl, hc, ?_⟩
    rintro _ rfl -
    exact List.prefix_refl _
  · cases o with
    | success x d =>
      have hspell := ho.eq_spell.symm
      exact absurd ((compared_spell codes c).success_iff.mp ⟨x, d, hspell⟩) hc
    | failure e =>
      refine .missing ?_
      rintro _ rfl
      exact hc

theorem modify {m : Modifier} (hg : g.Munches L) (hm : m.PassesFailures)
    (hs : ∀ {w : Input} (c d : Cursor w) x, ∃ y, Modifier.Turns c m (.success x d) (.success y d)) :
    (Grammar.modify m g).Munches L := by
  intro w c
  obtain ⟨o, ho, hlongest⟩ := hg w c
  cases hlongest with
  | found hx =>
    obtain ⟨y, hy⟩ := hs c _ _
    exact ⟨_, .modify ho hy, .found hx⟩
  | missing hnone => exact ⟨_, .modify ho (.fails hm), .missing hnone⟩

theorem ignore (hg : g.Munches L) : g.ignore.Munches L :=
  hg.modify (m := .ignore) trivial fun _ _ _ => ⟨_, .ignore⟩

theorem recognize (hg : g.Munches L) : g.recognize.Munches L :=
  hg.modify (m := .recognize) trivial fun _ _ _ => ⟨_, .recognize⟩

theorem exists_success {c : Cursor w} {x : List Int} (hg : g.Munches L)
    (hx : IsLongest L c.remaining x) :
    ∃ v, Derives [] [] g c (.success v (c.advance x.length)) := by
  obtain ⟨o, ho, hlongest⟩ := hg w c
  cases hlongest with
  | found hx' =>
    obtain rfl := hx'.unique hx
    exact ⟨_, ho⟩
  | missing hnone => exact absurd hx.isPrefix (hnone x hx.mem)

theorem derives_slice {c : Cursor w} {x : List Int} (hg : g.Munches L)
    (hx : IsLongest L c.remaining x) :
    Derives [] [] g.recognize c (.success (.slice x) (c.advance x.length)) := by
  obtain ⟨v, hv⟩ := hg.exists_success hx
  have hrecognize := Derives.modify hv .recognize
  rwa [Cursor.sliceFrom_of_isPrefix hx.isPrefix] at hrecognize

theorem optional (hg : g.Munches L) : g.optional.Munches (1 + L) := by
  intro w c
  obtain ⟨o, ho, hlongest⟩ := hg w c
  cases hlongest with
  | found hx => exact ⟨_, .modify ho .present, .found hx.one_add⟩
  | missing hnone =>
    have hnil := Outcome.Longest.found (v := .absent) (IsLongest.nil hnone)
    rw [List.length_nil, Cursor.advance_zero] at hnil
    exact ⟨_, .modify ho .absent, hnil⟩

theorem andThen (hg : g.Munches L) (hh : h.Munches M) (hLM : Apart L M) :
    (g.andThen h).Munches (L * M) := by
  intro w c
  obtain ⟨o, ho, hlongest⟩ := hg w c
  cases hlongest with
  | @found x v hx =>
    obtain ⟨rest, hrest⟩ := hx.isPrefix
    have hremaining := Cursor.remaining_advance hrest.symm
    obtain ⟨o', ho', hlongest'⟩ := hh w (c.advance x.length)
    refine ⟨_, .sequence ho ho', ?_⟩
    rw [← hrest] at hx
    cases hlongest' with
    | @found z v' hz =>
      rw [hremaining] at hz
      rw [Outcome.map_success, Cursor.advance_advance, ← List.length_append]
      exact .found (hrest ▸ hx.append hz hLM)
    | missing hnone =>
      rw [hremaining] at hnone
      refine .missing ?_
      rintro _ ⟨y, hy, z, hz, rfl⟩ hbegins
      rw [← hrest] at hbegins
      rcases hx.divides hLM hy hz hbegins with ⟨-, hz'⟩ | ⟨rfl, -⟩
      · exact hnone z hz hz'
      · exact hnone [] hz List.nil_prefix
  | missing hnone =>
    refine ⟨_, .sequenceFails ho, .missing ?_⟩
    rintro _ ⟨y, hy, z, -, rfl⟩ hbegins
    exact hnone y hy ((List.prefix_append y z).trans hbegins)

/-- A choice of which the second part never reads more than the first where both match. -/
theorem orElse (hg : g.Munches L) (hh : h.Munches M)
    (hLM : ∀ x ∈ L, ∀ y ∈ M, x <+: y → y <+: x) : (g.orElse h).Munches (L + M) := by
  intro w c
  obtain ⟨o, ho, hlongest⟩ := hg w c
  cases hlongest with
  | @found x v hx =>
    refine ⟨_, .choiceLeft ho, .found ⟨.inl hx.mem, hx.isPrefix, ?_⟩⟩
    rintro y (hy | hy) hbegins
    · exact hx.longest y hy hbegins
    · rcases List.prefix_or_prefix_of_prefix hx.isPrefix hbegins with hxy | hyx
      · exact hLM x hx.mem y hy hxy
      · exact hyx
  | missing hnone =>
    obtain ⟨o', ho', hlongest'⟩ := hh w c
    cases hlongest' with
    | found hy =>
      refine ⟨_, .choiceRight ho ho', .found ⟨.inr hy.mem, hy.isPrefix, ?_⟩⟩
      rintro x (hx | hx) hbegins
      · exact absurd hbegins (hnone x hx)
      · exact hy.longest x hx hbegins
    | missing hnone' =>
      refine ⟨_, .choiceFails ho ho', .missing ?_⟩
      rintro x (hx | hx)
      · exact hnone x hx
      · exact hnone' x hx

end Munches

end Grammar

end Descent
