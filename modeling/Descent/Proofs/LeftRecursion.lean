import Mathlib.Data.Fintype.Card
import Mathlib.Data.Set.Finite.Basic
import Mathlib.Logic.Relation
import Descent.Proofs.Derivation

/-!
# Left calls

Whether a grammar may succeed without consuming anything, which definitions it may call before it
has consumed anything, and all definitions that there are in a grammar and its rules. A definition
is its body with the definitions around it. Where no definition leads back to itself by such calls,
they are well-founded.
-/

namespace Descent
variable {w : Input} {rules : List (String × Grammar)}

namespace Grammar

/-- The delayed and recursive definitions in a grammar, those in their bodies among them. -/
def definitions (frames : Frames) : Grammar → List Closure
  | terminal _ => []
  | modify _ g => g.definitions frames
  | join _ g h => g.definitions frames ++ h.definitions frames
  | between g h k => g.definitions frames ++ h.definitions frames ++ k.definitions frames
  | bind g _ => g.definitions frames
  | call _ => []
  | delay body => (frames, body) :: body.definitions frames
  | recursive name body =>
    ((name, body) :: frames, body) :: body.definitions ((name, body) :: frames)

theorem definitions_subset_opening (frames : Frames) (g h k : Grammar) :
    g.definitions frames ⊆ (between g h k).definitions frames :=
  fun _ hK => List.mem_append_left _ (List.mem_append_left _ hK)

theorem definitions_subset_content (frames : Frames) (g h k : Grammar) :
    h.definitions frames ⊆ (between g h k).definitions frames :=
  fun _ hK => List.mem_append_left _ (List.mem_append_right _ hK)

/-- The rules and all definitions in them and in a grammar. -/
def allDefinitions (rules : List (String × Grammar)) (g : Grammar) : List Closure :=
  rules.map (fun r => ([], r.2)) ++ (g :: rules.map (·.2)).flatMap (definitions [])

end Grammar

/-- `Nullable rules frames g`: by what its parts tell, `g` may succeed without consuming anything.
What follows a `bind` is not known, so it counts as nullable. -/
inductive Nullable (rules : List (String × Grammar)) : Frames → Grammar → Prop
  | literal {frames} : Nullable rules frames (.terminal (.literal []))
  | endOfInput {frames} : Nullable rules frames (.terminal .endOfInput)
  | succeed {frames value} : Nullable rules frames (.terminal (.succeed value))
  | notFollowedBy {frames g} : Nullable rules frames (.modify .notFollowedBy g)
  | optional {frames g} : Nullable rules frames (.modify .optional g)
  | repeatedZero {frames max g} : Nullable rules frames (.modify (.repeated 0 max) g)
  | modify {frames m g} : Nullable rules frames g → Nullable rules frames (.modify m g)
  | sequence {frames keep g h} : Nullable rules frames g → Nullable rules frames h →
      Nullable rules frames (.join (.sequence keep) g h)
  | choiceLeft {frames choose g h} : Nullable rules frames g →
      Nullable rules frames (.join (.choice choose) g h)
  | choiceRight {frames choose g h} : Nullable rules frames h →
      Nullable rules frames (.join (.choice choose) g h)
  | separatedList {frames g h} : Nullable rules frames g →
      Nullable rules frames (.join .separatedList g h)
  | between {frames g h k} : Nullable rules frames g → Nullable rules frames h →
      Nullable rules frames k → Nullable rules frames (.between g h k)
  | bind {frames g f} : Nullable rules frames (.bind g f)
  | unfold {frames inner g body} : g.target? rules frames = some (inner, body) →
      Nullable rules inner body → Nullable rules frames g

/-- `Leads rules frames g K`: at a place that is reached from the start of `g` through nullable
parts only, the definition `K` is called. Of grammars with a `bind` this says nothing. -/
inductive Leads (rules : List (String × Grammar)) : Frames → Grammar → Closure → Prop
  | target {frames g K} : g.target? rules frames = some K → Leads rules frames g K
  | modify {frames m g K} : Leads rules frames g K → Leads rules frames (.modify m g) K
  | joinLeft {frames k g h K} : Leads rules frames g K → Leads rules frames (.join k g h) K
  | choiceRight {frames choose g h K} : Leads rules frames h K →
      Leads rules frames (.join (.choice choose) g h) K
  | joinRight {frames k g h K} : Nullable rules frames g → Leads rules frames h K →
      Leads rules frames (.join k g h) K
  | opening {frames g h k K} : Leads rules frames g K → Leads rules frames (.between g h k) K
  | content {frames g h k K} : Nullable rules frames g → Leads rules frames h K →
      Leads rules frames (.between g h k) K
  | closing {frames g h k K} : Nullable rules frames g → Nullable rules frames h →
      Leads rules frames k K → Leads rules frames (.between g h k) K

/-- The definition `K` calls `K'` before it has consumed anything. -/
def LeftCalls (rules : List (String × Grammar)) (K K' : Closure) : Prop := Leads rules K.1 K.2 K'

section
variable {frames : Frames} {K : Closure} {g h k : Grammar}

@[simp] theorem nullable_terminal_iff {t : Terminal} : Nullable rules frames (.terminal t) ↔
    t = .literal [] ∨ t = .endOfInput ∨ ∃ value, t = .succeed value := by
  constructor
  · intro hn
    cases hn with
    | literal => exact .inl rfl
    | endOfInput => exact .inr (.inl rfl)
    | succeed => exact .inr (.inr ⟨_, rfl⟩)
    | unfold ht => cases ht
  · rintro (rfl | rfl | ⟨value, rfl⟩)
    · exact .literal
    · exact .endOfInput
    · exact .succeed

@[simp] theorem leads_terminal_iff {t : Terminal} : Leads rules frames (.terminal t) K ↔ False := by
  refine ⟨fun hK => ?_, False.elim⟩
  cases hK with
  | target ht => cases ht

@[simp] theorem leads_modify_iff {m : Modifier} :
    Leads rules frames (.modify m g) K ↔ Leads rules frames g K := by
  refine ⟨fun hK => ?_, .modify⟩
  cases hK with
  | target ht => cases ht
  | modify hK => exact hK

@[simp] theorem leads_choice_iff {choose : Choose} :
    Leads rules frames (.join (.choice choose) g h) K ↔
      Leads rules frames g K ∨ Leads rules frames h K := by
  constructor
  · intro hK
    cases hK with
    | target ht => cases ht
    | joinLeft hK => exact .inl hK
    | choiceRight hK => exact .inr hK
    | joinRight _ hK => exact .inr hK
  · exact fun hK => hK.elim .joinLeft .choiceRight

theorem leads_join_iff {k : Connective} (hk : ∀ choose, k ≠ .choice choose) :
    Leads rules frames (.join k g h) K ↔
      Leads rules frames g K ∨ (Nullable rules frames g ∧ Leads rules frames h K) := by
  constructor
  · intro hK
    cases hK with
    | target ht => cases ht
    | joinLeft hK => exact .inl hK
    | choiceRight _ => exact absurd rfl (hk _)
    | joinRight hn hK => exact .inr ⟨hn, hK⟩
  · exact fun hK => hK.elim .joinLeft fun hK => .joinRight hK.1 hK.2

@[simp] theorem leads_between_iff : Leads rules frames (.between g h k) K ↔
    Leads rules frames g K ∨ (Nullable rules frames g ∧ Leads rules frames h K) ∨
      (Nullable rules frames g ∧ Nullable rules frames h ∧ Leads rules frames k K) := by
  constructor
  · intro hK
    cases hK with
    | target ht => cases ht
    | opening hK => exact .inl hK
    | content hn hK => exact .inr (.inl ⟨hn, hK⟩)
    | closing hn hn' hK => exact .inr (.inr ⟨hn, hn', hK⟩)
  · rintro (hK | ⟨hn, hK⟩ | ⟨hn, hn', hK⟩)
    · exact .opening hK
    · exact .content hn hK
    · exact .closing hn hn' hK

@[simp] theorem leads_call_iff {name : String} :
    Leads rules frames (.call name) K ↔ frames.resolve? rules name = some K := by
  refine ⟨fun hK => ?_, fun ht => .target ht⟩
  cases hK with
  | target ht => exact ht

end

theorem Spells.position_eq {whole rest xs : List Int} {c d : Cursor w}
    (h : Spells whole rest c (.success xs d)) : d.position = c.position + rest.length := by
  generalize ho : (Outcome.success xs d : Outcome w (List Int)) = o at h
  induction h generalizing xs with
  | done =>
    cases ho
    rfl
  | @go e rest c o hx _ ih =>
    cases o with
    | success ys d' =>
      cases ho
      have hnext := Cursor.next_position_of_element? hx
      have hrest := ih rfl
      rw [List.length_cons]
      omega
    | failure e => cases ho
  | differs => cases ho
  | ended => cases ho

theorem Terminal.Matches.nullable {t : Terminal} {c d : Cursor w} {x : Tree} {frames : Frames}
    (h : t.Matches c (.success x d)) (hle : d.position ≤ c.position) :
    Nullable rules frames (.terminal t) := by
  generalize ho : (Outcome.success x d : Outcome w Tree) = o at h
  cases h with
  | accept _ hx _ =>
    cases ho
    have hnext := Cursor.next_position_of_element? hx
    omega
  | atEnd => exact .endOfInput
  | succeed => exact .succeed
  | @literal codes c o hs =>
    cases o with
    | success xs d' =>
      cases ho
      have hlen := hs.position_eq
      obtain rfl : codes = [] := List.eq_nil_of_length_eq_zero (by omega)
      exact .literal
    | failure e => cases ho
  | _ => cases ho

theorem Modifier.Turns.nullable {m : Modifier} {c d : Cursor w} {x : Tree} {o : Outcome w Tree}
    {frames : Frames} {g : Grammar} (h : Turns c m o (.success x d))
    (hg : ∀ y, o = .success y d → Nullable rules frames g) :
    Nullable rules frames (.modify m g) := by
  cases h with
  | absent => exact .optional
  | absence => exact .notFollowedBy
  | _ => exact .modify (hg _ rfl)

/-- A repetition that has no match yet and succeeds without consuming needs no match or has one
that consumes nothing. -/
theorem Repeats.nullable {α : Type} {R : Cursor w → Outcome w α → Prop}
    (hR : ∀ c o, R c o → o.SoundAt c) {min : Nat} {max : Option Nat} {c d : Cursor w} {xs : List α}
    (h : Repeats R min max 0 c (.success xs d)) (hle : d.position ≤ c.position) :
    min = 0 ∨ ∃ x d', R c (.success x d') ∧ d'.position ≤ c.position := by
  generalize ho : (Outcome.success xs d : Outcome w (List α)) = o at h
  cases h with
  | full _ _ hmin => exact .inl (by omega)
  | enough _ _ hmin => exact .inl (by omega)
  | @more _ _ x d' o _ hx _ hrest =>
    cases o with
    | success ys e =>
      cases ho
      have hde : d'.position ≤ d.position := hrest.soundAt hR
      exact .inr ⟨x, d', hx, Nat.le_trans hde hle⟩
    | failure e => cases ho
  | @stalled _ _ x d' _ hx =>
    cases ho
    exact .inr ⟨x, d, hx, hle⟩
  | _ => cases ho

/-- Only nullable grammars succeed without consuming anything. -/
theorem Derives.nullable {frames : Frames} {g : Grammar} {c : Cursor w} {o : Outcome w Tree}
    (h : Derives rules frames g c o) : ∀ x d, o = .success x d → d.position ≤ c.position →
      Nullable rules frames g := by
  have of_map {f : Tree → Tree} {o : Outcome w Tree} {x : Tree} {d : Cursor w}
      (h : o.map f = .success x d) : ∃ y, o = .success y d := by
    cases o with
    | success y d' =>
      cases h
      exact ⟨y, rfl⟩
    | failure e => cases h
  induction h with
  | terminal ht =>
    rintro x d rfl hle
    exact ht.nullable hle
  | modify _ ht ih =>
    rintro x d rfl hle
    exact ht.nullable fun y hy => ih y d hy hle
  | @repeated frames min max g c o R hR hr ih =>
    -- Without matches the minimum is zero; otherwise the first match has consumed nothing.
    intro x d ho hle
    cases o with
    | success xs d' =>
      cases ho
      rcases hr.nullable (fun d o h => (hR d o h).soundAt) hle with rfl | ⟨y, e, hy, hle'⟩
      · exact .repeatedZero
      · exact .modify (ih _ _ hy y e rfl hle')
    | failure e => cases ho
  | sequence hg hh ih ih' =>
    intro x d ho hle
    obtain ⟨y, rfl⟩ := of_map ho
    have hmiddle := hg.position_le
    have hend := hh.position_le
    exact .sequence (ih _ _ rfl (by omega)) (ih' _ _ rfl (by omega))
  | choiceLeft _ ih =>
    intro x d ho hle
    cases ho
    exact .choiceLeft (ih _ _ rfl hle)
  | choiceRight _ _ _ ih =>
    intro x d ho hle
    cases ho
    exact .choiceRight (ih _ _ rfl hle)
  | list hg hR hS hc ih =>
    intro x d ho hle
    cases ho
    have hend := hc.position_le (fun _ _ _ h => (hR _ _ h).position_le)
      fun _ _ _ h => (hS _ _ h).position_le
    exact .separatedList (ih _ _ rfl (Nat.le_trans hend hle))
  | between hg hh hk ih ih' ih'' =>
    intro x d ho hle
    obtain ⟨y, rfl⟩ := of_map ho
    have hinside := hg.position_le
    have hafter := hh.position_le
    have hend := hk.position_le
    exact .between (ih _ _ rfl (by omega)) (ih' _ _ rfl (by omega)) (ih'' _ _ rfl (by omega))
  | bind => exact fun _ _ _ _ => .bind
  | unfold ht _ ih => exact fun x d ho hle => .unfold ht (ih x d ho hle)
  | sequenceFails | choiceFails | listFails | openingFails | contentFails | bindFails | unbound =>
    intro x d ho
    cases ho

/-- What `g` calls among `frames` is one of the definitions `D`. -/
structure Within (rules : List (String × Grammar)) (D : List Closure) (frames : Frames)
    (g : Grammar) : Prop where
  inside : g.definitions frames ⊆ D
  around : ∀ {name body outer}, ((name, body) :: outer) <:+ frames →
    ((name, body) :: outer, body) ∈ D
  rules : ∀ {name body}, (name, body) ∈ rules → ([], body) ∈ D

theorem Frames.mem_of_resolve? {D : List Closure} {frames : Frames} {name : String} {K : Closure}
    (haround : ∀ {name body outer}, ((name, body) :: outer) <:+ frames →
      ((name, body) :: outer, body) ∈ D)
    (hrules : ∀ {name body}, (name, body) ∈ rules → ([], body) ∈ D)
    (h : frames.resolve? rules name = some K) : K ∈ D := by
  induction frames with
  | nil =>
    obtain ⟨body, hbody, rfl⟩ := Option.map_eq_some_iff.mp h
    obtain ⟨before, after, heq, _⟩ := List.lookup_eq_some_iff.mp hbody
    have hmem : (name, body) ∈ rules.reverse := by simp [heq]
    exact hrules (List.mem_reverse.mp hmem)
  | cons frame outer ih =>
    obtain ⟨n, body⟩ := frame
    rw [resolve?] at h
    split at h
    case isTrue =>
      cases h
      exact haround (List.suffix_refl _)
    case isFalse => exact ih (fun hs => haround (hs.trans (List.suffix_cons _ _))) h

namespace Within
variable {D : List Closure} {frames : Frames} {g g' : Grammar}

theorem part (h : Within rules D frames g) (hg : g'.definitions frames ⊆ g.definitions frames) :
    Within rules D frames g' :=
  ⟨fun _ hK => h.inside (hg hK), h.around, h.rules⟩

theorem target?_mem (h : Within rules D frames g) {K : Closure}
    (ht : g.target? rules frames = some K) : K ∈ D := by
  cases g with
  | call name => exact Frames.mem_of_resolve? h.around h.rules ht
  | delay body =>
    cases ht
    exact h.inside List.mem_cons_self
  | recursive name body =>
    cases ht
    exact h.inside List.mem_cons_self
  | _ => cases ht

theorem leads_mem (h : Within rules D frames g) {K : Closure} (hK : Leads rules frames g K) :
    K ∈ D := by
  induction hK with
  | target ht => exact h.target?_mem ht
  | modify _ ih => exact ih (h.part (List.Subset.refl _))
  | joinLeft _ ih => exact ih (h.part (List.subset_append_left _ _))
  | choiceRight _ ih => exact ih (h.part (List.subset_append_right _ _))
  | joinRight _ _ ih => exact ih (h.part (List.subset_append_right _ _))
  | opening _ ih => exact ih (h.part (Grammar.definitions_subset_opening _ _ _ _))
  | content _ _ ih => exact ih (h.part (Grammar.definitions_subset_content _ _ _ _))
  | closing _ _ _ ih => exact ih (h.part (List.subset_append_right _ _))

theorem of_mem_definitions (h : Within rules D frames g) (hb : g.BindFree) {K : Closure}
    (hK : K ∈ g.definitions frames) : Within rules D K.1 K.2 ∧ K.2.BindFree := by
  induction g generalizing frames with
  | terminal t => cases hK
  | modify m g ih => exact ih (h.part (List.Subset.refl _)) hb hK
  | join k g g' ih ih' =>
    rcases List.mem_append.mp hK with hK | hK
    · exact ih (h.part (List.subset_append_left _ _)) hb.1 hK
    · exact ih' (h.part (List.subset_append_right _ _)) hb.2 hK
  | between g g' g'' ih ih' ih'' =>
    rcases List.mem_append.mp hK with hK | hK
    · rcases List.mem_append.mp hK with hK | hK
      · exact ih (h.part (Grammar.definitions_subset_opening _ _ _ _)) hb.1 hK
      · exact ih' (h.part (Grammar.definitions_subset_content _ _ _ _)) hb.2.1 hK
    · exact ih'' (h.part (List.subset_append_right _ _)) hb.2.2 hK
  | bind g f => exact hb.elim
  | call name => cases hK
  | delay body ih =>
    have hbody : Within rules D frames body := h.part (List.subset_cons_self _ _)
    rcases List.mem_cons.mp hK with rfl | hK
    · exact ⟨hbody, hb⟩
    · exact ih hbody hb hK
  | recursive name body ih =>
    have hself := h.inside List.mem_cons_self
    -- One definition more stands around the body: its own.
    have hbody : Within rules D ((name, body) :: frames) body := by
      refine ⟨fun K hK => h.inside (List.mem_cons_of_mem _ hK), fun hs => ?_, h.rules⟩
      rcases List.suffix_cons_iff.mp hs with heq | hs
      · cases heq
        exact hself
      · exact h.around hs
    rcases List.mem_cons.mp hK with rfl | hK
    · exact ⟨hbody, hb⟩
    · exact ih hbody hb hK

end Within

namespace Grammar

theorem within_allDefinitions {g g' : Grammar} (h : g' ∈ g :: rules.map (·.2)) :
    Within rules (allDefinitions rules g) [] g' := by
  refine ⟨fun K hK => ?_, fun hs => ?_, fun hr => ?_⟩
  · exact List.mem_append_right _ (List.mem_flatMap.mpr ⟨g', h, hK⟩)
  · cases List.suffix_nil.mp hs
  · exact List.mem_append_left _ (List.mem_map.mpr ⟨_, hr, rfl⟩)

theorem within_of_mem_allDefinitions {g : Grammar} (hb : ∀ g' ∈ g :: rules.map (·.2), g'.BindFree)
    {K : Closure} (hK : K ∈ allDefinitions rules g) :
    Within rules (allDefinitions rules g) K.1 K.2 ∧ K.2.BindFree := by
  rcases List.mem_append.mp hK with hK | hK
  · obtain ⟨r, hr, rfl⟩ := List.mem_map.mp hK
    have hmem : r.2 ∈ g :: rules.map (·.2) := List.mem_cons_of_mem _ (List.mem_map_of_mem hr)
    exact ⟨within_allDefinitions hmem, hb _ hmem⟩
  · obtain ⟨g', hmem, hK⟩ := List.mem_flatMap.mp hK
    exact (within_allDefinitions hmem).of_mem_definitions (hb _ hmem) hK

end Grammar

/-- Finitely many definitions none of which leads back to itself. -/
theorem wellFounded_leftCalls {D : List Closure}
    (h : ∀ K ∈ D, ¬Relation.TransGen (LeftCalls rules) K K) :
    WellFounded fun K' K : {K // K ∈ D} => LeftCalls rules K.1 K'.1 := by
  -- On a finite set a transitive relation without loops is well-founded.
  have hfinite : Finite {K // K ∈ D} := D.finite_toSet.to_subtype
  have htrans : IsTrans {K // K ∈ D}
      (Relation.TransGen fun K' K => LeftCalls rules K.1 K'.1) := ⟨fun _ _ _ => .trans⟩
  have hirrefl : Std.Irrefl
      (Relation.TransGen fun K' K : {K // K ∈ D} => LeftCalls rules K.1 K'.1) := by
    refine ⟨fun K hK => h K.1 K.2 ?_⟩
    have hback := Relation.transGen_swap.mp hK
    exact hback.lift Subtype.val fun _ _ hcall => hcall
  have hwf := Finite.wellFounded_of_trans_of_irrefl
    (Relation.TransGen fun K' K : {K // K ∈ D} => LeftCalls rules K.1 K'.1)
  exact Subrelation.wf (fun hcall => .single hcall) hwf

end Descent
