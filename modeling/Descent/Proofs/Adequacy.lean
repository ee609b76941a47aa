import Mathlib.Order.Filter.AtTopBot.Basic
import Descent.Proofs.Answer
import Descent.Proofs.Derivation
import Descent.Proofs.Simulation

namespace Descent
variable {w : Input}

open Filter in
theorem Repeats.eventually {ι α : Type} {l : Filter ι} {R : Cursor w → Outcome w α → Prop}
    {R' : ι → Cursor w → Outcome w α → Prop} (hR : ∀ c o, R c o → ∀ᶠ i in l, R' i c o) {min : Nat}
    {max : Option Nat} {n : Nat} {c : Cursor w} {o : Outcome w (List α)}
    (h : Repeats R min max n c o) : ∀ᶠ i in l, Repeats (R' i) min max n c o := by
  induction h with
  | full hm hle hmin => exact .of_forall fun _ => .full hm hle hmin
  | exceeds hm hle hmin => exact .of_forall fun _ => .exceeds hm hle hmin
  | enough hroom h hmin =>
    filter_upwards [hR _ _ h] with i hi
    exact .enough hroom hi hmin
  | nothing hroom h hmin =>
    filter_upwards [hR _ _ h] with i hi
    exact .nothing hroom hi hmin
  | tooFew hroom h hpos hmin =>
    filter_upwards [hR _ _ h] with i hi
    exact .tooFew hroom hi hpos hmin
  | more hroom h hgo _ ih =>
    filter_upwards [hR _ _ h, ih] with i hi hi'
    exact .more hroom hi hgo hi'
  | stalled hnone h hmin hno =>
    filter_upwards [hR _ _ h] with i hi
    exact .stalled hnone hi hmin hno

open Filter in
theorem Continues.eventually {ι α β : Type} {l : Filter ι} {R : Cursor w → Outcome w α → Prop}
    {S : Cursor w → Outcome w β → Prop} {R' : ι → Cursor w → Outcome w α → Prop}
    {S' : ι → Cursor w → Outcome w β → Prop} (hR : ∀ c o, R c o → ∀ᶠ i in l, R' i c o)
    (hS : ∀ c o, S c o → ∀ᶠ i in l, S' i c o) {c e : Cursor w} {xs : List α}
    (h : Continues R S c xs e) : ∀ᶠ i in l, Continues (R' i) (S' i) c xs e := by
  induction h with
  | noSeparator h =>
    filter_upwards [hS _ _ h] with i hi
    exact .noSeparator hi
  | noItem h h' =>
    filter_upwards [hS _ _ h, hR _ _ h'] with i hi hi'
    exact .noItem hi hi'
  | stalled h h' hsame =>
    filter_upwards [hS _ _ h, hR _ _ h'] with i hi hi'
    exact .stalled hi hi' hsame
  | more h h' hne _ ih =>
    filter_upwards [hS _ _ h, hR _ _ h', ih] with i hi hi' hrest
    exact .more hi hi' hne hrest

theorem Modifier.Turns.ne_repeated {m : Modifier} {c : Cursor w} {o o' : Outcome w Tree}
    (h : Turns c m o o') (min : Nat) (max : Option Nat) : m ≠ repeated min max := by
  rintro rfl
  cases h with
  | fails hm => exact hm

/-- The run always ends, with the value `a`. -/
abbrev Run.Ends {σ α : Type} (a : α) (x : Run σ α) : Prop :=
  Meets (fun _ => True) (fun _ => False) (· = a) x

theorem Run.Ends.exists_ok {σ α : Type} {a : α} {x : Run σ α} (h : Ends a x) (t : Trail σ) :
    ∃ u, x t = .ok (a, u) := by
  have ht := h t trivial
  cases hx : x t with
  | error s =>
    rw [hx] at ht
    exact ht.elim
  | ok r =>
    rw [hx] at ht
    exact ⟨r.2, by rw [← ht.1]⟩

open Filter Run

variable {rules : List (String × Grammar)} {frames : Frames} {g : Grammar} {c : Cursor w}
variable {o o' : Outcome w Tree}

/-- With definitions run at most `depth` levels deep, the run of a grammar ends with `o`. -/
abbrev Grammar.Reaches (rules : List (String × Grammar)) (frames : Frames) (g : Grammar)
    (depth : Nat) (c : Cursor w) (o : Outcome w Tree) : Prop :=
  Ends o (g.evaluate rules
    (unfolded rules depth : Frames → Grammar → Parser Unit w Tree) frames c)

theorem Grammar.eventually_unfolded (h : ∀ᶠ depth in atTop, g.Reaches rules frames depth c o) :
    ∀ᶠ depth in atTop, Ends o ((g.unfolded rules depth frames : Parser Unit w Tree) c) := by
  obtain ⟨n, hn⟩ := eventually_atTop.mp h
  refine eventually_atTop.mpr ⟨n + 1, fun depth hdepth => ?_⟩
  obtain ⟨k, rfl⟩ : ∃ k, depth = k + 1 := ⟨depth - 1, by omega⟩
  exact hn k (by omega)

/-- If the depth suffices, a run ends with what is derived. -/
theorem Derives.eventually (h : Derives rules frames g c o) :
    ∀ᶠ depth in atTop, g.Reaches rules frames depth c o := by
  induction h with
  | terminal ht =>
    refine .of_forall fun depth => ?_
    exact (Terminal.meets_matches _ _).mono fun o' ho' => ho'.unique ht
  | modify _ ht ih =>
    filter_upwards [ih] with depth hg
    refine (Modifier.meets_apply ht.ne_repeated hg).mono ?_
    rintro o' ⟨_, rfl, ht'⟩
    exact ht'.unique ht
  | repeated _ hr ih =>
    filter_upwards [hr.eventually ih] with depth hr'
    refine Parser.meets_map ((Parser.repeatFrom_complete (fun _ _ h => h) hr' #[] rfl).mono ?_)
    rintro _ rfl
    simp
  | sequenceFails _ ih =>
    filter_upwards [ih] with depth hg
    apply hg.bind_eq
    exact .pure rfl
  | @sequence frames keep g h c x d o _ _ ih ih' =>
    filter_upwards [ih, ih'] with depth hg hh
    apply hg.bind_eq
    apply hh.bind_eq
    cases o with
    | success y d' => exact .pure rfl
    | failure e => exact .pure rfl
  | choiceLeft _ ih =>
    filter_upwards [ih] with depth hg
    apply hg.bind_eq
    exact .pure rfl
  | choiceRight _ _ ih ih' =>
    filter_upwards [ih, ih'] with depth hg hh
    apply hg.bind_eq
    apply hh.bind_eq
    exact .pure rfl
  | choiceFails _ _ ih ih' =>
    filter_upwards [ih, ih'] with depth hg hh
    apply hg.bind_eq
    apply hh.bind_eq
    exact .pure rfl
  | listFails _ ih =>
    filter_upwards [ih] with depth hg
    apply Parser.meets_map
    apply hg.bind_eq
    exact .pure rfl
  | @list frames g h c x d xs e R S _ hR hS hc ih ihR ihS =>
    -- The loop is known to follow the rules only where nothing goes back.
    have hR' : ∀ d o, R d o → ∀ᶠ depth in atTop,
        o.SoundAt d ∧ g.Reaches rules frames depth d o :=
      fun d o ho => (ihR d o ho).mono fun _ hd => ⟨(hR d o ho).soundAt, hd⟩
    have hS' : ∀ d o, S d o → ∀ᶠ depth in atTop,
        o.SoundAt d ∧ h.Reaches rules frames depth d o :=
      fun d o ho => (ihS d o ho).mono fun _ hd => ⟨(hS d o ho).soundAt, hd⟩
    have hc' := hc.eventually hR' hS'
    filter_upwards [ih, hc'] with depth hg hrest
    apply Parser.meets_map
    apply hg.bind_eq
    refine (Parser.separatedFrom_complete (fun _ _ h => h.2) (fun _ _ h => h.2)
      (fun _ _ _ h => h.1) (fun _ _ _ h => h.1) hrest #[x]).mono ?_
    rintro _ rfl
    rfl
  | openingFails _ ih =>
    filter_upwards [ih] with depth hg
    apply hg.bind_eq
    exact .pure rfl
  | contentFails _ _ ih ih' =>
    filter_upwards [ih, ih'] with depth hg hh
    apply hg.bind_eq
    apply hh.bind_eq
    exact .pure rfl
  | @between frames g h k c x d y d' o _ _ _ ih ih' ih'' =>
    filter_upwards [ih, ih', ih''] with depth hg hh hk
    apply hg.bind_eq
    apply hh.bind_eq
    apply hk.bind_eq
    cases o with
    | success z d'' => exact .pure rfl
    | failure e => exact .pure rfl
  | bindFails _ ih =>
    filter_upwards [ih] with depth hg
    apply hg.bind_eq
    exact .pure rfl
  | bind _ _ ih ih' =>
    filter_upwards [ih, Grammar.eventually_unfolded ih'] with depth hg hf
    apply hg.bind_eq
    exact hf
  | unfold ht _ ih =>
    -- The body needs one level more than its own derivation.
    filter_upwards [Grammar.eventually_unfolded ih] with depth hbody
    unfold Grammar.Reaches
    rw [Grammar.evaluate_of_target? ht]
    exact hbody
  | @unbound frames name c hr =>
    refine .of_forall fun depth => ?_
    unfold Grammar.Reaches Grammar.evaluate
    rw [hr]
    exact .pure rfl

theorem Derives.unique (h : Derives rules frames g c o) (h' : Derives rules frames g c o') :
    o = o' := by
  -- Both outcomes are reached by one and the same run.
  obtain ⟨depth, hd, hd'⟩ := (h.eventually.and h'.eventually).exists
  obtain ⟨u, hu⟩ := hd.exists_ok ⟨#[], ()⟩
  obtain ⟨u', hu'⟩ := hd'.exists_ok ⟨#[], ()⟩
  rw [hu] at hu'
  cases hu'
  rfl

theorem Derives.parser_eventually (h : Derives rules [] g c o) (log : Array Record) :
    ∀ᶠ depth in atTop, ∃ trail, g.parser depth c ⟨log, Store.ofRules rules⟩ = .ok (o, trail) := by
  filter_upwards [Grammar.eventually_unfolded h.eventually] with depth hd
  exact Grammar.parser_ok_iff.mpr (hd.exists_ok _)

/-- What is derived is what runs without a store end with. -/
theorem Grammar.derives_iff_unfolded : Derives rules frames g c o ↔
    ∃ depth trail, g.unfolded rules depth frames c (⟨#[], ()⟩ : Trail Unit) = .ok (o, trail) := by
  constructor
  · intro h
    obtain ⟨depth, hd⟩ := (eventually_unfolded h.eventually).exists
    exact ⟨depth, hd.exists_ok _⟩
  · rintro ⟨depth, trail, h⟩
    have hm : Meets (fun _ => True) (fun _ => True) (Derives rules frames g c)
        ((g.unfolded rules depth frames : Parser Unit w Tree) c) :=
      meets_unfolded trivial depth frames g c
    exact hm.of_ok trivial h

theorem Grammar.derives_of_run {depth : Nat} {log : Array Record} {trail : Trail Store}
    (h : g.parser depth c ⟨log, Store.ofRules rules⟩ = .ok (o, trail)) : Derives rules [] g c o :=
  derives_iff_unfolded.mpr ⟨depth, parser_ok_iff.mp ⟨trail, h⟩⟩

theorem Grammar.parse_of_derives {extent : Extent} (h : Derives rules [] g (extent.cursor w) o) :
    ∃ depth, ∀ deeper ≥ depth, ∃ transcript, g.parse deeper rules w extent = .ok transcript ∧
      transcript.answer = extent.judge o := by
  obtain ⟨depth, hdepth⟩ :=
    eventually_atTop.mp (h.parser_eventually (extent.opening w).toArray)
  refine ⟨depth, fun deeper hle => ?_⟩
  obtain ⟨trail, hrun⟩ := hdepth deeper hle
  rw [parse, Store.parse_eq, hrun]
  exact ⟨_, rfl, rfl⟩

/-- Whatever a parse answers is what something derived comes to. -/
theorem Grammar.derives_of_parse {depth : Nat} {extent : Extent} {transcript : Transcript}
    (h : g.parse depth rules w extent = .ok transcript) :
    ∃ o, Derives rules [] g (extent.cursor w) o ∧ transcript.answer = extent.judge o := by
  rw [parse, Store.parse_eq] at h
  cases hrun : g.parser depth (extent.cursor w)
      ⟨(extent.opening w).toArray, Store.ofRules rules⟩ with
  | error why =>
    rw [hrun] at h
    cases h
  | ok r =>
    rw [hrun] at h
    cases h
    exact ⟨r.1, derives_of_run hrun, rfl⟩

/-- A parse with the store of its rules ends with exactly what is derived from the grammar, and that
is at most one outcome. -/
theorem Grammar.parser_iff_derives (rules : List (String × Grammar)) (g : Grammar) (c : Cursor w)
    (log : Array Record) (o : Outcome w Tree) :
    ((∃ depth trail, g.parser depth c ⟨log, Store.ofRules rules⟩ = .ok (o, trail)) ↔
      Derives rules [] g c o) ∧
    (Derives rules [] g c o → ∀ o', Derives rules [] g c o' → o' = o) := by
  refine ⟨⟨?_, fun h => (h.parser_eventually log).exists⟩, fun h o' h' => h'.unique h⟩
  rintro ⟨depth, hdepth⟩
  obtain ⟨u, hu⟩ := parser_ok_iff.mp hdepth
  have hm : Meets (fun _ => True) (fun _ => True) (Derives rules [] g c)
      ((g.unfolded rules depth [] : Parser Unit w Tree) c) := meets_unfolded trivial depth [] g c
  have ho := hm ⟨#[], ()⟩ trivial
  rw [hu] at ho
  exact ho.1

end Descent
