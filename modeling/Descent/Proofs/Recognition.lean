import Mathlib
import Descent.Grammar.Action
import Descent.Proofs.Simulation

namespace Descent
variable {σ τ : Type} {w v : Input} {α β γ α' β' γ' : Type}

/-- What changes nothing but the tree is left out. -/
def Modifier.core : Modifier → Grammar → Grammar
  | map _, g => g
  | ignore, g => g
  | recognize, g => g
  | spanned, g => g
  | shared, g => g
  | m, g => .modify m g

def Connective.core : Connective → Connective
  | sequence _ => sequence .both
  | choice _ => choice .same
  | separatedList => separatedList

namespace Grammar

/-- A grammar without all that only shapes trees; content between two parts is a row of three. -/
def core : Grammar → Grammar
  | terminal t => terminal t
  | modify m g => m.core g.core
  | join k g h => join k.core g.core h.core
  | between g h k => (g.core.andThen h.core).andThen k.core
  | bind g f => bind g.core fun x => (f x).core
  | call name => call name
  | delay body => delay body.core
  | recursive name body => recursive name body.core

def coreAll (definitions : List (String × Grammar)) : List (String × Grammar) :=
  definitions.map fun d => (d.1, d.2.core)

theorem lookup_coreAll (name : String) (definitions : List (String × Grammar)) :
    (coreAll definitions).lookup name = (definitions.lookup name).map core := by
  induction definitions with
  | nil => rfl
  | cons d rest ih =>
    rw [coreAll, List.map_cons, List.lookup_cons, List.lookup_cons]
    split
    · rfl
    · exact ih

end Grammar

theorem Frames.resolve?_coreAll (rules : List (String × Grammar)) (frames : Frames)
    (name : String) :
    Frames.resolve? (Grammar.coreAll rules) name (Grammar.coreAll frames) =
      (frames.resolve? rules name).map fun K => (Grammar.coreAll K.1, K.2.core) := by
  induction frames with
  | nil =>
    have hreverse : (Grammar.coreAll rules).reverse = Grammar.coreAll rules.reverse :=
      List.map_reverse.symm
    show ((Grammar.coreAll rules).reverse.lookup name).map _ = Option.map _ (Option.map _ _)
    rw [hreverse, Grammar.lookup_coreAll, Option.map_map, Option.map_map]
    rfl
  | cons frame outer ih =>
    obtain ⟨n, body⟩ := frame
    show Frames.resolve? _ name ((n, body.core) :: Grammar.coreAll outer) = _
    rw [Frames.resolve?, Frames.resolve?]
    split
    · rfl
    · exact ih

def Modifier.TreeBlind : Modifier → Prop
  | tryMap _ => False
  | filter _ _ => False
  | _ => True

/-- What a grammar does next never depends on a tree. -/
def Grammar.TreeBlind : Grammar → Prop
  | terminal _ => True
  | modify m g => m.TreeBlind ∧ g.TreeBlind
  | join _ g h => g.TreeBlind ∧ h.TreeBlind
  | between g h k => g.TreeBlind ∧ h.TreeBlind ∧ k.TreeBlind
  | bind _ _ => False
  | call _ => True
  | delay body => body.TreeBlind
  | recursive _ body => body.TreeBlind

theorem Modifier.TreeBlind.alike {m : Modifier} (hm : m.TreeBlind) :
    m.Alike (fun _ _ => True) m := by
  cases m with
  | map f => exact .map fun _ _ _ => trivial
  | tryMap f => exact hm.elim
  | filter holds reason => exact hm.elim
  | ignore => exact .ignore
  | recognize => exact .recognize
  | spanned => exact .spanned
  | optional => exact .optional
  | repeated min max => exact .repeated
  | notFollowedBy => exact .notFollowedBy
  | shared => exact .shared

namespace Correspondence
variable {K : Correspondence w v} {T : Trail σ → Trail τ → Prop}
variable {V : α → β → Prop} {U : γ → β → Prop} {p : Parser σ w α} {q : Parser τ v β}

/-- A parser that goes on after its part without reading, beside one that does not. -/
theorem Parsers.dropped {c : Cursor w} {d : Cursor v} {k : Outcome w α → Run σ (Outcome w γ)}
    (h : K.Parsers T V p q) (hc : K.cursor c d)
    (hs : ∀ x y c' d', V x y → K.cursor c' d' →
      Run.Related T (K.Outcomes U) (k (.success x c')) (pure (.success y d')))
    (hf : ∀ e, k (.failure e) = pure (.failure e)) :
    Run.Related T (K.Outcomes U) (p c >>= k) (q d) := by
  rw [← bind_pure (q d)]
  refine h.cases hc hs fun e f he => ?_
  rw [hf]
  exact .pure he

end Correspondence

open Correspondence (same)
variable {T : Trail σ → Trail τ → Prop}

abbrev Recognize (T : Trail σ → Trail τ → Prop) (p : Parser σ w α) (q : Parser τ w β) : Prop :=
  (same w).Parsers T (fun _ _ => True) p q

theorem Correspondence.trees_any (w : Input) : (same w).Trees fun _ _ => True where
  sliceFrom_eq := (trees_same w).sliceFrom_eq
  unit := trivial
  element _ := trivial
  slice _ := trivial
  list _ := trivial
  pair _ _ := trivial
  absent := trivial
  present _ := trivial
  left _ := trivial
  right _ := trivial
  spanned _ _ _ _ := trivial

theorem Correspondence.map_unit_eq {o : Outcome w α} {o' : Outcome w β}
    (h : (same w).Outcomes (fun _ _ => True) o o') : o.map (fun _ => ()) = o'.map fun _ => () := by
  cases o with
  | success x d =>
    cases o' with
    | success y d' =>
      obtain rfl : d = d' := h.2
      rfl
    | failure e => exact h.elim
  | failure e =>
    cases o' with
    | success y d' => exact h.elim
    | failure e' => exact congrArg Outcome.failure h

namespace Recognize

theorem terminal (t : Terminal) : Recognize T (t.parser : Parser σ w Tree) t.parser := by
  rintro c _ rfl u u' ht
  obtain ⟨o, ho⟩ := t.exists_outcome c
  rw [Terminal.parser_apply ho, Terminal.parser_apply ho]
  cases o with
  | success x d => exact ⟨⟨trivial, rfl⟩, ht⟩
  | failure e => exact ⟨rfl, ht⟩

variable {p : Parser σ w α} {q : Parser τ w β}

theorem map (h : Recognize T p q) (f : α → γ) : Recognize T (Parser.map f p) q :=
  fun _ _ hc => h.dropped hc (fun _ _ _ _ _ hd => .pure ⟨trivial, hd⟩) fun _ => rfl

theorem ignore (h : Recognize T p q) : Recognize T (Parser.ignore p) q :=
  fun _ _ hc => h.dropped hc (fun _ _ _ _ _ hd => .pure ⟨trivial, hd⟩) fun _ => rfl

theorem spanned (h : Recognize T p q) : Recognize T (Parser.spanned p) q :=
  fun _ _ hc => h.dropped hc (fun _ _ _ _ _ hd => .pure ⟨trivial, hd⟩) fun _ => rfl

theorem recognize (h : Recognize T p q) : Recognize T (Parser.recognize p) q := by
  refine fun c d hc => h.dropped hc (fun x y c' d' _ hd t u ht => ?_) fun _ => rfl
  -- The range that is read lies inside the input, so that reading it does not stop the run.
  dsimp only
  rw [Run.bind_apply, Run.slice_apply ⟨Nat.min_le_right _ _, c'.le_size⟩]
  exact ⟨⟨trivial, hd⟩, ht⟩

theorem modify (hT : (same w).Stalls T) {rules : List (String × Grammar)} {frames : Frames}
    {deeper : Frames → Grammar → Parser τ w Tree} {g : Grammar} {p : Parser σ w Tree}
    (h : Recognize T p (g.evaluate rules deeper frames)) {m : Modifier} (hm : m.TreeBlind) :
    Recognize T (m.apply p) ((m.core g).evaluate rules deeper frames) := by
  have hkept : Recognize T (m.apply p) (m.apply (g.evaluate rules deeper frames)) :=
    hm.alike.parsers (Correspondence.trees_any w) hT h
  cases m with
  | map f => exact h.map f
  | ignore => exact h.ignore.map _
  | recognize => exact h.recognize.map _
  | spanned => exact h.spanned.map _
  | shared => exact h
  | tryMap f => exact hkept
  | filter holds reason => exact hkept
  | optional => exact hkept
  | repeated min max => exact hkept
  | notFollowedBy => exact hkept

theorem join {p p' : Parser σ w Tree} {q q' : Parser τ w Tree} (h : Recognize T p q)
    (h' : Recognize T p' q') (k : Connective) :
    Recognize T (k.apply p p') (k.core.apply q q') := by
  cases k with
  | sequence keep => exact h.seqWith h' fun _ _ _ _ _ _ => trivial
  | choice choose => exact h.orWith h' (fun _ _ _ => trivial) fun _ _ _ => trivial
  | separatedList => exact Connective.separatedList.parsers_alike (Correspondence.trees_any w) h h'

theorem between {p p' p'' : Parser σ w Tree} {q q' q'' : Parser τ w Tree} (h : Recognize T p q)
    (h' : Recognize T p' q') (h'' : Recognize T p'' q'') :
    Recognize T (Parser.between p p' p'')
      ((Connective.sequence .both).apply ((Connective.sequence .both).apply q q') q'') := by
  rw [Parser.between_eq, Connective.apply, Connective.apply, Parser.seqWith_assoc]
  have hrest : Recognize T (Parser.seqWith (fun x _ => x) p' p'') (Parser.seqWith Prod.mk q' q'') :=
    h'.seqWith h'' fun _ _ _ _ _ _ => trivial
  exact h.seqWith hrest fun _ _ _ _ _ _ => trivial

end Recognize

namespace Grammar
variable {rules : List (String × Grammar)}

theorem recognize_evaluate (hT : (same w).Stalls T) (hrules : ∀ r ∈ rules, r.2.TreeBlind)
    {deeper : Frames → Grammar → Parser σ w Tree} {deeper' : Frames → Grammar → Parser τ w Tree}
    (hd : ∀ {frames g}, (∀ f ∈ frames, f.2.TreeBlind) → g.TreeBlind →
      Recognize T (deeper frames g) (deeper' (coreAll frames) g.core))
    {frames : Frames} (hframes : ∀ f ∈ frames, f.2.TreeBlind) {g : Grammar} (hg : g.TreeBlind) :
    Recognize T (g.evaluate rules deeper frames)
      (g.core.evaluate (coreAll rules) deeper' (coreAll frames)) := by
  induction g with
  | terminal t => exact .terminal t
  | modify m g ih => exact (ih hg.2).modify hT hg.1
  | join k g h ih ih' => exact (ih hg.1).join (ih' hg.2) k
  | between g h k ih ih' ih'' => exact (ih hg.1).between (ih' hg.2.1) (ih'' hg.2.2)
  | bind g f => exact hg.elim
  | call name =>
    have hcore := Frames.resolve?_coreAll rules frames name
    cases hr : frames.resolve? rules name with
    | none =>
      rw [hr] at hcore
      unfold core evaluate
      rw [hr, hcore]
      exact Recognize.terminal (.fail _)
    | some K =>
      obtain ⟨inner, body⟩ := K
      obtain ⟨hinner, hbody⟩ := Frames.forall_of_resolve? hrules hframes hr
      rw [hr] at hcore
      unfold core evaluate
      rw [hr, hcore]
      exact hd hinner hbody
  | delay body => exact hd hframes hg
  | recursive name body => exact hd (List.forall_mem_cons.mpr ⟨hg, hframes⟩) hg

theorem recognize_unfolded (hT : (same w).Stalls T) (hrules : ∀ r ∈ rules, r.2.TreeBlind)
    (depth : Nat) {frames : Frames} (hframes : ∀ f ∈ frames, f.2.TreeBlind) {g : Grammar}
    (hg : g.TreeBlind) :
    Recognize T (g.unfolded rules depth frames : Parser σ w Tree)
      (g.core.unfolded (coreAll rules) depth (coreAll frames) : Parser τ w Tree) := by
  induction depth generalizing frames g with
  | zero => exact fun _ _ _ => .stop _
  | succ depth ih => exact recognize_evaluate hT hrules (fun hf hg => ih hf hg) hframes hg

/-- If no part of a grammar tests trees, its core succeeds and fails as the grammar does, at the same
place or with the same error, and writes the same about repetitions. -/
theorem parser_core {g : Grammar} (hg : ∀ g' ∈ g :: rules.map (·.2), g'.TreeBlind) (depth : Nat)
    (c : Cursor w) (log : Array Record) :
    (g.parser depth c ⟨log, Store.ofRules rules⟩).map
        (fun r => (r.1.map fun _ => (), Record.stalls r.2.log)) =
      (g.core.parser depth c ⟨log, Store.ofRules (coreAll rules)⟩).map
        fun r => (r.1.map fun _ => (), Record.stalls r.2.log) := by
  obtain ⟨hself, hrules⟩ := List.forall_mem_cons.mp hg
  have hT : (same w).Stalls fun t u : Trail Unit => t.log = u.log := by
    rintro d _ rfl t u ht
    exact ⟨trivial, congrArg (·.push (.stalled d.position)) ht⟩
  have hcore := recognize_unfolded hT (List.forall_mem_map.mp hrules) depth
    (List.forall_mem_nil _) hself
  have hrun := hcore c c rfl ⟨#[], ()⟩ ⟨#[], ()⟩ rfl
  -- Both runs are like unfolded ones, which agree with each other in their logs as well.
  have hleft := g.alike_unfolded rules depth c log
  have hright := (g.core.alike_unfolded (coreAll rules) depth c log).symm
  apply ((hleft.trans hrun).trans hright).map_eq
  rintro o o' t t' ⟨_, ⟨_, heq, ho⟩, heq'⟩ ⟨u', ⟨u, hu, hlog⟩, hu'⟩
  rw [(Correspondence.outcomes_same_iff _ _).mp heq, (Correspondence.outcomes_same_iff _ _).mp heq',
    Correspondence.map_unit_eq ho, hu, hu', hlog]

def block : Grammar :=
  .recursive "block" <| .between (.is 40)
    (.spanned <| .some <| .seq .right (.call "blank") <|
      .choice .either (.call "block") (.map countItems (.shared (.recognize (.some (.range 97 122))))))
    (.is 41)

def blank : Grammar := .ignore (.many (.optional (.is 32)))

theorem parser_core_block :
    let w : Input := ⟨.byte, #[40, 32, 97, 98, 40, 99, 41, 41], by decide⟩
    let v : Input := ⟨.byte, #[40, 41], by decide⟩
    let rules := [("blank", blank)]
    (∀ g' ∈ block :: rules.map (·.2), g'.TreeBlind) ∧
      (block.parser 9 (Cursor.start w) ⟨#[], Store.ofRules rules⟩).map
          (fun r => (r.1.map fun _ => (), Record.stalls r.2.log)) =
        .ok (.success () ⟨8, by decide⟩,
          [.stalled 2, .stalled 4, .stalled 5, .stalled 6, .stalled 7]) ∧
      (block.parser 9 (Cursor.start v) ⟨#[], Store.ofRules rules⟩).map
          (fun r => (r.1.map fun _ => (), Record.stalls r.2.log)) =
        .ok (.failure (.alternativesExhausted 1 (.literalMismatch "expected '(', found ')'" 1)
          (.rangeMismatch "expected element in range 'a'-'z', found ')'" 1)), [.stalled 1]) := by
  intro w v rules
  have hblind : ∀ g' ∈ block :: rules.map (·.2), g'.TreeBlind := by
    simp [rules, block, blank, TreeBlind, Modifier.TreeBlind, spanned, Grammar.some, many, repeated,
      seq, choice, map, shared, recognize, ignore, optional, is, range]
  refine ⟨hblind, ?_, ?_⟩
  · rw [parser_core hblind]
    cbv
  · rw [parser_core hblind]
    cbv

end Grammar

end Descent
