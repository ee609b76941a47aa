import Descent.Proofs.Congruence
import Descent.Proofs.Terminal

namespace Descent
variable {σ τ : Type} {w : Input}

/-- The recursive definitions around a grammar with their bodies, innermost first. -/
abbrev Frames := List (String × Grammar)

/-- The body of a definition and the recursive definitions around it. -/
abbrev Closure := Frames × Grammar

/-- The definition that a name stands for inside `frames`, with the definitions around it: the
innermost enclosing one of that name, or the rule that was registered last under it. -/
def Frames.resolve? (rules : List (String × Grammar)) (name : String) :
    Frames → Option (Frames × Grammar)
  | [] => (rules.reverse.lookup name).map fun body => ([], body)
  | (n, body) :: outer =>
    if name == n then some ((n, body) :: outer, body) else resolve? rules name outer

theorem Frames.resolve?_cons_self (rules : List (String × Grammar)) (name : String)
    (body : Grammar) (outer : Frames) :
    resolve? rules name ((name, body) :: outer) = some ((name, body) :: outer, body) := by
  rw [resolve?, if_pos (beq_self_eq_true name)]

theorem Frames.resolve?_cons_of_ne (rules : List (String × Grammar)) {name other : String}
    (h : other ≠ name) (body : Grammar) (outer : Frames) :
    resolve? rules other ((name, body) :: outer) = outer.resolve? rules other := by
  rw [resolve?, if_neg (by simpa using h)]

theorem Frames.forall_of_resolve? {P : Grammar → Prop} {rules : List (String × Grammar)}
    (hrules : ∀ r ∈ rules, P r.2) {frames inner : Frames} (hframes : ∀ f ∈ frames, P f.2)
    {name : String} {body : Grammar} (h : frames.resolve? rules name = some (inner, body)) :
    (∀ f ∈ inner, P f.2) ∧ P body := by
  induction frames with
  | nil =>
    obtain ⟨body', hbody, heq⟩ := Option.map_eq_some_iff.mp h
    cases heq
    obtain ⟨before, after, hsplit, _⟩ := List.lookup_eq_some_iff.mp hbody
    have hmem : (name, body) ∈ rules.reverse := by simp [hsplit]
    exact ⟨hframes, hrules _ (List.mem_reverse.mp hmem)⟩
  | cons frame outer ih =>
    obtain ⟨n, b⟩ := frame
    rw [resolve?] at h
    split at h
    case isTrue =>
      cases h
      exact ⟨hframes, hframes _ List.mem_cons_self⟩
    case isFalse => exact ih (fun f hf => hframes f (List.mem_cons_of_mem _ hf)) h

namespace Grammar

def BindFree : Grammar → Prop
  | terminal _ => True
  | modify _ g => g.BindFree
  | join _ g h => g.BindFree ∧ h.BindFree
  | between g h k => g.BindFree ∧ h.BindFree ∧ k.BindFree
  | bind _ _ => False
  | call _ => True
  | delay body => body.BindFree
  | recursive _ body => body.BindFree

/-- Interpret a grammar among the definitions around it; `deeper` runs a body one level deeper. -/
def evaluate (rules : List (String × Grammar)) (deeper : Frames → Grammar → Parser σ w Tree)
    (frames : Frames) : Grammar → Parser σ w Tree
  | terminal t => t.parser
  | modify m g => m.apply (g.evaluate rules deeper frames)
  | join k g h => k.apply (g.evaluate rules deeper frames) (h.evaluate rules deeper frames)
  | between g h k =>
    Parser.between (g.evaluate rules deeper frames) (h.evaluate rules deeper frames)
      (k.evaluate rules deeper frames)
  | bind g f => Parser.bind (g.evaluate rules deeper frames) fun x => deeper frames (f x)
  | call name =>
    match frames.resolve? rules name with
    | some (inner, body) => deeper inner body
    | none => Parser.fail ("unbound parser " ++ name)
  | delay body => deeper frames body
  | recursive name body => deeper ((name, body) :: frames) body

/-- Run a grammar by unfolding its definitions, going down at most `depth` levels. -/
def unfolded (rules : List (String × Grammar)) :
    (depth : Nat) → Frames → Grammar → Parser σ w Tree
  | 0, _, _ => fun _ => Run.stop .cutOff
  | depth + 1, frames, g => g.evaluate rules (unfolded rules depth) frames

/-- The definition to which a reference leads inside `frames`, with the definitions around it. -/
def target? (rules : List (String × Grammar)) (frames : Frames) :
    Grammar → Option (Frames × Grammar)
  | call name => frames.resolve? rules name
  | delay body => some (frames, body)
  | recursive name body => some ((name, body) :: frames, body)
  | _ => none

theorem evaluate_of_target? {rules : List (String × Grammar)}
    {deeper : Frames → Grammar → Parser σ w Tree} {frames inner : Frames} {g body : Grammar}
    (h : g.target? rules frames = some (inner, body)) :
    g.evaluate rules deeper frames = deeper inner body := by
  cases g with
  | call name =>
    rw [target?] at h
    rw [evaluate, h]
  | delay body =>
    cases h
    rfl
  | recursive name body =>
    cases h
    rfl
  | _ => cases h

theorem forall_of_target? {P : Grammar → Prop} (hdelay : ∀ body, P (delay body) → P body)
    (hrecursive : ∀ name body, P (recursive name body) → P body)
    {rules : List (String × Grammar)} (hrules : ∀ r ∈ rules, P r.2) {frames inner : Frames}
    (hframes : ∀ f ∈ frames, P f.2) {g body : Grammar} (hg : P g)
    (h : g.target? rules frames = some (inner, body)) : (∀ f ∈ inner, P f.2) ∧ P body := by
  cases g with
  | call name => exact Frames.forall_of_resolve? hrules hframes h
  | delay body =>
    cases h
    exact ⟨hframes, hdelay _ hg⟩
  | recursive name body =>
    cases h
    have hbody := hrecursive _ _ hg
    exact ⟨List.forall_mem_cons.mpr ⟨hbody, hframes⟩, hbody⟩
  | _ => cases h

end Grammar

open Correspondence (same)
variable {T : Trail σ → Trail τ → Prop}

theorem Terminal.parsers_same (t : Terminal) :
    (same w).Parsers T Eq (t.parser : Parser σ w Tree) (t.parser : Parser τ w Tree) := by
  rintro c _ rfl u u' ht
  obtain ⟨o, ho⟩ := t.exists_outcome c
  rw [parser_apply ho, parser_apply ho]
  exact ⟨(Correspondence.outcomes_same_iff o o).mpr rfl, ht⟩

theorem Correspondence.trees_same (w : Input) : (same w).Trees Eq where
  sliceFrom_eq := by
    rintro c c' _ _ rfl rfl
    rfl
  unit := rfl
  element _ := rfl
  slice _ := rfl
  list h := by
    rw [List.forall₂_eq_eq_eq] at h
    rw [h]
  pair h h' := by rw [h, h']
  absent := rfl
  present h := by rw [h]
  left h := by rw [h]
  right h := by rw [h]
  spanned _ h hc hc' := by rw [h, hc, hc']

theorem Modifier.alike_self (m : Modifier) : m.Alike Eq m := by
  cases m with
  | map f => exact .map fun _ _ hx => congrArg f hx
  | tryMap f =>
    refine .tryMap fun x _ hx => ?_
    subst hx
    cases f x with
    | ok y => exact .inl ⟨y, y, rfl, rfl, rfl⟩
    | error reason => exact .inr ⟨reason, rfl, rfl⟩
  | filter holds reason => exact .filter fun _ _ hx => congrArg holds hx
  | ignore => exact .ignore
  | recognize => exact .recognize
  | spanned => exact .spanned
  | optional => exact .optional
  | repeated min max => exact .repeated
  | notFollowedBy => exact .notFollowedBy
  | shared => exact .shared

theorem Modifier.parsers_same (hT : (same w).Stalls T) {p : Parser σ w Tree} {q : Parser τ w Tree}
    (h : (same w).Parsers T Eq p q) (m : Modifier) :
    (same w).Parsers T Eq (m.apply p) (m.apply q) :=
  m.alike_self.parsers (Correspondence.trees_same w) hT h

theorem Connective.parsers_same {p p' : Parser σ w Tree} {q q' : Parser τ w Tree}
    (h : (same w).Parsers T Eq p q) (h' : (same w).Parsers T Eq p' q') (k : Connective) :
    (same w).Parsers T Eq (k.apply p p') (k.apply q q') :=
  k.parsers_alike (Correspondence.trees_same w) h h'

end Descent
