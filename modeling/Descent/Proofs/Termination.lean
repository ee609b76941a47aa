import Descent.Proofs.Adequacy
import Descent.Proofs.LeftRecursion

namespace Descent
variable {w : Input} {α β : Type}

theorem Repeats.exists_outcome {R : Cursor w → Outcome w α → Prop}
    (hR : ∀ c o, R c o → o.SoundAt c) (min : Nat) (max : Option Nat) (found : Array α)
    (c : Cursor w) (htotal : ∀ d : Cursor w, c.position ≤ d.position → ∃ o, R d o) :
    ∃ o, Repeats R min max found.size c o := by
  have full {found : Array α} {c : Cursor w} (h : ¬max.all (found.size < ·)) :
      ∃ o, Repeats R min max found.size c o := by
    obtain ⟨m, hm, hle⟩ := exists_max_le h
    by_cases hmin : min ≤ found.size
    · exact ⟨_, .full hm hle hmin⟩
    · exact ⟨_, .exceeds hm hle (by omega)⟩
  induction found, c using Parser.repeatFrom.induct min max with
  | case1 found c hroom ih =>
    have hroom' := all_lt_iff.mp hroom
    obtain ⟨o, ho⟩ := htotal c (Nat.le_refl _)
    cases o with
    | success x d =>
      by_cases hgo : max.isSome ∨ found.size + 1 < min ∨ c.position < d.position
      · have hd : c.position ≤ d.position := hR _ _ ho
        obtain ⟨o', ho'⟩ := ih x d hgo fun d' hd' => htotal d' (Nat.le_trans hd hd')
        rw [Array.size_push] at ho'
        exact ⟨_, .more hroom' ho hgo ho'⟩
      · have hnone := Option.not_isSome_iff_eq_none.mp fun h => hgo (.inl h)
        exact ⟨_, .stalled hnone ho (by omega) (by omega)⟩
    | failure e =>
      by_cases hmin : min ≤ found.size
      · exact ⟨_, .enough hroom' ho hmin⟩
      · by_cases hzero : found.size = 0
        · rw [hzero] at hroom' ⊢
          exact ⟨_, .nothing hroom' ho (by omega)⟩
        · exact ⟨_, .tooFew hroom' ho (by omega) (by omega)⟩
  | case2 found c h => exact full h
  | case3 found c h => exact full h

theorem Continues.exists_outcome {R : Cursor w → Outcome w α → Prop}
    {S : Cursor w → Outcome w β → Prop} (hR : ∀ c o, R c o → o.SoundAt c)
    (hS : ∀ c o, S c o → o.SoundAt c) (found : Array α) (c : Cursor w)
    (htotal : ∀ d : Cursor w, c.position ≤ d.position → ∃ o, R d o)
    (htotal' : ∀ d : Cursor w, c.position ≤ d.position → ∃ o, S d o) :
    ∃ xs e, Continues R S c xs e := by
  induction found, c using Parser.separatedFrom.induct with
  | case1 found c ih =>
    obtain ⟨o, ho⟩ := htotal' c (Nat.le_refl _)
    cases o with
    | failure e => exact ⟨_, _, .noSeparator ho⟩
    | success y d =>
      have hd : c.position ≤ d.position := hS _ _ ho
      obtain ⟨o', ho'⟩ := htotal d hd
      cases o' with
      | failure e => exact ⟨_, _, .noItem ho ho'⟩
      | success x d' =>
        have hd' : d.position ≤ d'.position := hR _ _ ho'
        by_cases hsame : d'.position = c.position
        · exact ⟨_, _, .stalled ho ho' hsame⟩
        · have hle : c.position ≤ d'.position := Nat.le_trans hd hd'
          obtain ⟨xs, e, hrest⟩ := ih x d' (by omega)
            (fun e he => htotal e (Nat.le_trans hle he))
            fun e he => htotal' e (Nat.le_trans hle he)
          exact ⟨_, _, .more ho ho' hsame hrest⟩

theorem Modifier.Turns.exists_outcome {m : Modifier} (hm : ∀ min max, m ≠ repeated min max)
    (c : Cursor w) (o : Outcome w Tree) : ∃ o', Turns c m o o' := by
  cases o with
  | failure e =>
    cases m with
    | optional => exact ⟨_, .absent⟩
    | notFollowedBy => exact ⟨_, .absence⟩
    | repeated min max => exact absurd rfl (hm min max)
    | _ => exact ⟨_, .fails trivial⟩
  | success x d =>
    cases m with
    | map f => exact ⟨_, .map⟩
    | tryMap f =>
      cases hx : f x with
      | ok y => exact ⟨_, .accept hx⟩
      | error reason => exact ⟨_, .reject hx⟩
    | filter holds reason =>
      cases hx : holds x with
      | true => exact ⟨_, .keep hx⟩
      | false => exact ⟨_, .refuse hx⟩
    | ignore => exact ⟨_, .ignore⟩
    | recognize => exact ⟨_, .recognize⟩
    | spanned => exact ⟨_, .spanned⟩
    | optional => exact ⟨_, .present⟩
    | repeated min max => exact absurd rfl (hm min max)
    | notFollowedBy => exact ⟨_, .presence⟩
    | shared => exact ⟨_, .shared⟩

variable {rules : List (String × Grammar)}

/-- The definition has an outcome at a cursor. -/
def Closure.Ends (rules : List (String × Grammar)) (K : Closure) (c : Cursor w) : Prop :=
  ∃ o, Derives rules K.1 K.2 c o

/-- At `c` nothing that `g` calls keeps it from ending: the definitions to which it leads end there,
and all definitions end further on. -/
structure Grounded (rules : List (String × Grammar)) (D : List Closure) (frames : Frames)
    (g : Grammar) (c : Cursor w) : Prop where
  within : Within rules D frames g
  bindFree : g.BindFree
  now : ∀ {K}, Leads rules frames g K → K.Ends rules c
  later : ∀ {K}, K ∈ D → ∀ d : Cursor w, c.position < d.position → K.Ends rules d

namespace Grounded
variable {D : List Closure} {frames : Frames} {g g' : Grammar} {c : Cursor w}

/-- A part that is run at `d` is grounded there, if what it leads to counts where nothing has been
consumed yet. -/
theorem part (h : Grounded rules D frames g c) (hb : g'.BindFree)
    (hdef : g'.definitions frames ⊆ g.definitions frames) {d : Cursor w}
    (hle : c.position ≤ d.position) (hleads : d.position ≤ c.position →
      ∀ {K}, Leads rules frames g' K → Leads rules frames g K) :
    Grounded rules D frames g' d where
  within := h.within.part hdef
  bindFree := hb
  now hK := by
    -- Either nothing has been consumed yet, or the part starts where all definitions end.
    by_cases hd : d.position ≤ c.position
    · obtain rfl : c = d := Cursor.ext (Nat.le_antisymm hle hd)
      exact h.now (hleads hd hK)
    · exact h.later ((h.within.part hdef).leads_mem hK) d (by omega)
  later hK e he := h.later hK e (by omega)

theorem target (h : Grounded rules D frames g c) {K : Closure}
    (ht : g.target? rules frames = some K) : ∃ o, Derives rules frames g c o := by
  obtain ⟨o, ho⟩ := h.now (.target ht)
  exact ⟨o, .unfold ht ho⟩

theorem exists_derives (h : Grounded rules D frames g c) : ∃ o, Derives rules frames g c o := by
  induction g generalizing c with
  | terminal t =>
    obtain ⟨o, ho⟩ := t.exists_outcome c
    exact ⟨o, .terminal ho⟩
  | modify m g ih =>
    have hb : g.BindFree := h.bindFree
    -- The part of a repetition is run again at every place that its matches reach.
    have hpart (d : Cursor w) (hd : c.position ≤ d.position) : ∃ o, Derives rules frames g d o :=
      ih (h.part hb (List.Subset.refl _) hd fun _ _ hK => .modify hK)
    by_cases hm : ∃ min max, m = .repeated min max
    · obtain ⟨min, max, rfl⟩ := hm
      obtain ⟨o, ho⟩ := Repeats.exists_outcome (fun _ _ h => h.soundAt) min max #[] c hpart
      exact ⟨_, .repeated (fun _ _ h => h) ho⟩
    · obtain ⟨o, ho⟩ := hpart c (Nat.le_refl _)
      obtain ⟨o', ho'⟩ := Modifier.Turns.exists_outcome (fun min max h => hm ⟨min, max, h⟩) c o
      exact ⟨o', .modify ho ho'⟩
  | join k g g' ih ih' =>
    have hfirst (d : Cursor w) (hd : c.position ≤ d.position) : ∃ o, Derives rules frames g d o :=
      ih (h.part h.bindFree.1 (List.subset_append_left _ _) hd fun _ _ hK => .joinLeft hK)
    -- The second part starts at `c` only if the first one has matched nothing there.
    have hsecond {x : Tree} {d : Cursor w} (hx : Derives rules frames g c (.success x d))
        (e : Cursor w) (he : d.position ≤ e.position) : ∃ o, Derives rules frames g' e o :=
      ih' (h.part h.bindFree.2 (List.subset_append_right _ _) (Nat.le_trans hx.position_le he)
        fun hc _ hK => .joinRight (hx.nullable x d rfl (Nat.le_trans he hc)) hK)
    obtain ⟨o, ho⟩ := hfirst c (Nat.le_refl _)
    cases k with
    | sequence keep =>
      cases o with
      | failure e => exact ⟨_, .sequenceFails ho⟩
      | success x d =>
        obtain ⟨o', ho'⟩ := hsecond ho d (Nat.le_refl _)
        exact ⟨_, .sequence ho ho'⟩
    | choice choose =>
      cases o with
      | success x d => exact ⟨_, .choiceLeft ho⟩
      | failure e =>
        obtain ⟨o', ho'⟩ := ih' (h.part h.bindFree.2 (List.subset_append_right _ _)
          (Nat.le_refl _) fun _ _ hK => .choiceRight hK)
        cases o' with
        | success y d => exact ⟨_, .choiceRight ho ho'⟩
        | failure e' => exact ⟨_, .choiceFails ho ho'⟩
    | separatedList =>
      cases o with
      | failure e => exact ⟨_, .listFails ho⟩
      | success x d =>
        obtain ⟨xs, e, hrest⟩ := Continues.exists_outcome (fun _ _ h => h.soundAt)
          (fun _ _ h => h.soundAt) #[x] d
          (fun d' hd' => hfirst d' (Nat.le_trans ho.position_le hd')) (hsecond ho)
        exact ⟨_, .list ho (fun _ _ h => h) (fun _ _ h => h) hrest⟩
  | between g g' g'' ih ih' ih'' =>
    obtain ⟨hb, hb', hb''⟩ := h.bindFree
    obtain ⟨o, ho⟩ := ih (h.part hb (Grammar.definitions_subset_opening _ _ _ _)
      (Nat.le_refl _) fun _ _ hK => .opening hK)
    cases o with
    | failure e => exact ⟨_, .openingFails ho⟩
    | success x d =>
      have hd := ho.position_le
      obtain ⟨o', ho'⟩ := ih' (h.part hb' (Grammar.definitions_subset_content _ _ _ _) hd
        fun hc _ hK => .content (ho.nullable x d rfl hc) hK)
      cases o' with
      | failure e => exact ⟨_, .contentFails ho ho'⟩
      | success y d' =>
        have hd' := ho'.position_le
        obtain ⟨o'', ho''⟩ := ih'' (h.part hb'' (List.subset_append_right _ _)
          (Nat.le_trans hd hd') fun hc _ hK => .closing
            (ho.nullable x d rfl (Nat.le_trans hd' hc))
            (ho'.nullable y d' rfl (Nat.le_trans hc hd)) hK)
        exact ⟨_, .between ho ho' ho''⟩
  | bind g f => exact h.bindFree.elim
  | call name =>
    cases hr : frames.resolve? rules name with
    | some K => exact h.target hr
    | none => exact ⟨_, .unbound hr⟩
  | delay body => exact h.target rfl
  | recursive name body => exact h.target rfl

end Grounded

/-- If no definition leads back to itself, every definition ends everywhere: by induction on what is
left of the input and, at one place, along the left calls. -/
theorem Closure.ends {D : List Closure} (hD : ∀ K ∈ D, Within rules D K.1 K.2 ∧ K.2.BindFree)
    (hleft : ∀ K ∈ D, ¬Relation.TransGen (LeftCalls rules) K K) {K : Closure} (hK : K ∈ D)
    (c : Cursor w) : K.Ends rules c := by
  have hwf := wellFounded_leftCalls hleft
  generalize hn : w.size - c.position = n
  induction n using Nat.strong_induction_on generalizing K c with
  | _ n ihn =>
    -- The outer induction serves what starts later, the inner one what starts here.
    have hlater {K : Closure} (hK : K ∈ D) (d : Cursor w) (hd : c.position < d.position) :
        K.Ends rules d := by
      have hsize := d.le_size
      exact ihn (w.size - d.position) (by omega) hK d rfl
    have hnow (K : {K // K ∈ D}) : K.1.Ends rules c := by
      induction K using hwf.induction with
      | _ K ihK =>
        obtain ⟨hw, hb⟩ := hD K.1 K.2
        have hg : Grounded rules D K.1.1 K.1.2 c :=
          ⟨hw, hb, fun hK' => ihK ⟨_, hw.leads_mem hK'⟩ hK', hlater⟩
        exact hg.exists_derives
    exact hnow ⟨K, hK⟩

/-- A grammar without `bind` in whose definitions there is no left recursion can be parsed from every
place of every input: a parse that may go deep enough ends with an outcome, whatever is repeated in
it. -/
theorem Grammar.parser_returns {g : Grammar} (hb : ∀ g' ∈ g :: rules.map (·.2), g'.BindFree)
    (hleft : ∀ K ∈ allDefinitions rules g, ¬Relation.TransGen (LeftCalls rules) K K)
    (c : Cursor w) (log : Array Record) : ∃ depth, ∀ deeper ≥ depth, ∃ o trail,
      g.parser deeper c ⟨log, Store.ofRules rules⟩ = .ok (o, trail) := by
  have hends {K : Closure} (hK : K ∈ allDefinitions rules g) (d : Cursor w) : K.Ends rules d :=
    Closure.ends (fun _ hK => within_of_mem_allDefinitions hb hK) hleft hK d
  have hw : Within rules (allDefinitions rules g) [] g := within_allDefinitions List.mem_cons_self
  have hg : Grounded rules (allDefinitions rules g) [] g c :=
    ⟨hw, hb g List.mem_cons_self, fun hK => hends (hw.leads_mem hK) c, fun hK d _ => hends hK d⟩
  obtain ⟨o, ho⟩ := hg.exists_derives
  obtain ⟨depth, hdepth⟩ := Filter.eventually_atTop.mp (ho.parser_eventually log)
  exact ⟨depth, fun deeper hle => ⟨o, hdepth deeper hle⟩⟩

namespace Grammar

def nestedItem : Grammar :=
  .orElse (.between (.is 40) (.call "list") (.is 41)) (.many (.optional (.is 97)))

def nestedList : Grammar := .separatedList (.call "item") (.is 44)

def nestedRules : List (String × Grammar) := [("list", nestedList), ("item", nestedItem)]

theorem parser_returns_nestedList :
    (∀ g ∈ call "list" :: nestedRules.map (·.2), g.BindFree) ∧
    (∀ K ∈ allDefinitions nestedRules (call "list"),
      ¬Relation.TransGen (LeftCalls nestedRules) K K) ∧
    ∃ depth, ∀ deeper ≥ depth, ∃ o trail, (call "list").parser deeper
      (Cursor.start ⟨.byte, #[40, 97, 44, 41], by decide⟩) ⟨#[], Store.ofRules nestedRules⟩ =
        .ok (o, trail) := by
  have hb : ∀ g ∈ call "list" :: nestedRules.map (·.2), g.BindFree := by
    intro g hg
    have hcases : g = call "list" ∨ g = nestedList ∨ g = nestedItem := by
      simpa [nestedRules] using hg
    rcases hcases with rfl | rfl | rfl
    · trivial
    · exact ⟨trivial, trivial⟩
    · exact ⟨⟨trivial, trivial, trivial⟩, trivial⟩
  -- A list calls items first, and an item calls nothing before its parenthesis.
  have hitem (K : Closure) : ¬LeftCalls nestedRules ([], nestedItem) K := by
    simp [LeftCalls, nestedItem, orElse, choice, is, many, repeated, optional]
  have hlist (K : Closure) (h : LeftCalls nestedRules ([], nestedList) K) : K = ([], nestedItem) := by
    have hcall : ([], nestedItem) = K := by
      simpa [LeftCalls, nestedList, separatedList, is, leads_join_iff, Frames.resolve?,
        nestedRules] using h
    exact hcall.symm
  have hleft : ∀ K ∈ allDefinitions nestedRules (call "list"),
      ¬Relation.TransGen (LeftCalls nestedRules) K K := by
    intro K hK hcycle
    have hcases : K = ([], nestedList) ∨ K = ([], nestedItem) := by
      simpa [allDefinitions, nestedRules, nestedList, nestedItem, definitions, separatedList, orElse,
        choice, is, many, repeated, optional] using hK
    obtain ⟨K', hfirst, hrest⟩ := Relation.TransGen.head'_iff.mp hcycle
    rcases hcases with rfl | rfl
    · obtain rfl := hlist K' hfirst
      rcases Relation.ReflTransGen.cases_head hrest with heq | ⟨K'', hsecond, _⟩
      · cases heq
      · exact hitem K'' hsecond
    · exact hitem K' hfirst
  exact ⟨hb, hleft, parser_returns hb hleft _ _⟩

end Grammar

end Descent
