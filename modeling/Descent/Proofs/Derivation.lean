import Descent.Proofs.Containment
import Descent.Proofs.Unfolding

/-!
# Derivations

The meaning of grammars by rules alone: what a grammar derives at a cursor is put together from what
its parts derive, and a reference derives what its definition does. Neither loops nor a store nor a
depth occur in the rules. Whatever a run ends with is derived.
-/

namespace Descent
variable {w : Input}

/-- `Derives rules frames g c o`: among the definitions `frames` and `rules`, the grammar `g` has the
outcome `o` at the cursor `c`. -/
inductive Derives (rules : List (String × Grammar)) :
    Frames → Grammar → Cursor w → Outcome w Tree → Prop
  | terminal {frames t c o} : t.Matches c o → Derives rules frames (.terminal t) c o
  | modify {frames m g c o o'} : Derives rules frames g c o → Modifier.Turns c m o o' →
      Derives rules frames (.modify m g) c o'
  /-- The matches of a repetition, which `R` names, are derived from its part. -/
  | repeated {frames min max g c o} {R : Cursor w → Outcome w Tree → Prop} :
      (∀ d o', R d o' → Derives rules frames g d o') → Repeats R min max 0 c o →
      Derives rules frames (.modify (.repeated min max) g) c (o.map .list)
  | sequenceFails {frames keep g h c e} : Derives rules frames g c (.failure e) →
      Derives rules frames (.join (.sequence keep) g h) c (.failure e)
  | sequence {frames keep g h c x d o} : Derives rules frames g c (.success x d) →
      Derives rules frames h d o →
      Derives rules frames (.join (.sequence keep) g h) c (o.map (keep.combine x))
  | choiceLeft {frames choose g h c x d} : Derives rules frames g c (.success x d) →
      Derives rules frames (.join (.choice choose) g h) c (.success (choose.onLeft x) d)
  | choiceRight {frames choose g h c e y d} : Derives rules frames g c (.failure e) →
      Derives rules frames h c (.success y d) →
      Derives rules frames (.join (.choice choose) g h) c (.success (choose.onRight y) d)
  | choiceFails {frames choose g h c e e'} : Derives rules frames g c (.failure e) →
      Derives rules frames h c (.failure e') → Derives rules frames (.join (.choice choose) g h) c
        (.failure (.alternativesExhausted c.position e e'))
  | listFails {frames g h c e} : Derives rules frames g c (.failure e) →
      Derives rules frames (.join .separatedList g h) c (.failure e)
  /-- After its first item a list goes on with the separators and items that `S` and `R` name. -/
  | list {frames g h c x d xs e} {R S : Cursor w → Outcome w Tree → Prop} :
      Derives rules frames g c (.success x d) → (∀ d o, R d o → Derives rules frames g d o) →
      (∀ d o, S d o → Derives rules frames h d o) → Continues R S d xs e →
      Derives rules frames (.join .separatedList g h) c (.success (.list (x :: xs)) e)
  | openingFails {frames g h k c e} : Derives rules frames g c (.failure e) →
      Derives rules frames (.between g h k) c (.failure e)
  | contentFails {frames g h k c x d e} : Derives rules frames g c (.success x d) →
      Derives rules frames h d (.failure e) → Derives rules frames (.between g h k) c (.failure e)
  | between {frames g h k c x d y d' o} : Derives rules frames g c (.success x d) →
      Derives rules frames h d (.success y d') → Derives rules frames k d' o →
      Derives rules frames (.between g h k) c (o.map fun _ => y)
  | bindFails {frames g f c e} : Derives rules frames g c (.failure e) →
      Derives rules frames (.bind g f) c (.failure e)
  | bind {frames g f c x d o} : Derives rules frames g c (.success x d) →
      Derives rules frames (f x) d o → Derives rules frames (.bind g f) c o
  /-- A call, a delayed body or a recursive one. -/
  | unfold {frames inner g body c o} : g.target? rules frames = some (inner, body) →
      Derives rules inner body c o → Derives rules frames g c o
  | unbound {frames name c} : frames.resolve? rules name = none → Derives rules frames (.call name) c
      (.failure (.custom ("unbound parser " ++ name) c.position))

namespace Derives
variable {rules : List (String × Grammar)} {frames : Frames} {g : Grammar} {c : Cursor w}
variable {o o' : Outcome w Tree}

theorem soundAt (h : Derives rules frames g c o) : o.SoundAt c := by
  induction h with
  | terminal ht => exact ht.soundAt
  | modify _ ht ih => exact ht.soundAt ih
  | repeated _ hr ih => exact (hr.soundAt ih).map
  | sequenceFails _ ih => exact ih
  | sequence _ _ ih ih' => exact (ih'.of_le ih).map
  | choiceLeft _ ih => exact ih
  | choiceRight _ _ _ ih' => exact ih'
  | choiceFails _ _ ih ih' =>
    exact ParseError.TruthfulFrom.alternativesExhausted (Cursor.le_size _) ih ih'
  | listFails _ ih => exact ih
  | list _ _ _ hc ih ihR ihS =>
    have hle := hc.position_le (fun _ _ _ h => ihR _ _ h) (fun _ _ _ h => ihS _ _ h)
    exact Nat.le_trans ih hle
  | openingFails _ ih => exact ih
  | contentFails _ _ ih ih' => exact ih'.of_le ih
  | between _ _ _ ih ih' ih'' => exact ((ih''.of_le ih').of_le ih).map
  | bindFails _ ih => exact ih
  | bind _ _ ih ih' => exact ih'.of_le ih
  | unfold _ _ ih => exact ih
  | unbound => exact .custom _ _

theorem position_le {x : Tree} {d : Cursor w} (h : Derives rules frames g c (.success x d)) :
    c.position ≤ d.position :=
  h.soundAt

end Derives

open Run (Meets)
variable {σ : Type} {I : σ → Prop} {A : Stop → Prop} {rules : List (String × Grammar)}

theorem Modifier.meets_derives {p : Parser σ w Tree} {frames : Frames} {g : Grammar}
    (hp : ∀ c, Meets I A (Derives rules frames g c) (p c)) (m : Modifier) (c : Cursor w) :
    Meets I A (Derives rules frames (.modify m g) c) (m.apply p c) := by
  by_cases hm : ∃ min max, m = repeated min max
  · obtain ⟨min, max, rfl⟩ := hm
    refine Parser.meets_map ((Parser.repeatFrom_sound hp min max #[] c).mono ?_)
    rintro _ ⟨o, hr, rfl⟩
    have ho := Derives.repeated (fun _ _ h => h) hr
    simpa using ho
  · have hm' : ∀ min max, m ≠ repeated min max := fun min max h => hm ⟨min, max, h⟩
    refine (meets_apply hm' (hp c)).mono ?_
    rintro o' ⟨o, ho, ht⟩
    exact .modify ho ht

theorem Connective.meets_derives {p q : Parser σ w Tree} {frames : Frames} {g h : Grammar}
    (hp : ∀ c, Meets I A (Derives rules frames g c) (p c))
    (hq : ∀ c, Meets I A (Derives rules frames h c) (q c)) (k : Connective) (c : Cursor w) :
    Meets I A (Derives rules frames (.join k g h) c) (k.apply p q c) := by
  cases k with
  | sequence keep =>
    apply Parser.meets_seqWith (hp c) (fun _ d _ => hq d)
    · exact fun _ h => .sequenceFails h
    · exact fun _ _ _ h h' => .sequence h h'
  | choice choose =>
    apply Parser.meets_orWith (hp c) (fun _ _ => hq c)
    · exact fun _ _ h => .choiceLeft h
    · exact fun _ _ _ h h' => .choiceRight h h'
    · exact fun _ _ h h' => .choiceFails h h'
  | separatedList =>
    refine Parser.meets_map (Parser.meets_cases (hp c) (fun x d h => ?_) fun e h => ?_)
    · refine (Parser.separatedFrom_sound hp hq (fun _ _ _ h => h.soundAt)
        (fun _ _ _ h => h.soundAt) #[x] d).mono ?_
      rintro _ ⟨xs, e, hc, rfl⟩
      exact .list h (fun _ _ h => h) (fun _ _ h => h) hc
    · exact .pure (.listFails h)

theorem Grammar.meets_between {p q r : Parser σ w Tree} {frames : Frames} {g h k : Grammar}
    (hp : ∀ c, Meets I A (Derives rules frames g c) (p c))
    (hq : ∀ c, Meets I A (Derives rules frames h c) (q c))
    (hr : ∀ c, Meets I A (Derives rules frames k c) (r c)) (c : Cursor w) :
    Meets I A (Derives rules frames (.between g h k) c) (Parser.between p q r c) := by
  rw [Parser.between_eq]
  -- The opening and all that follows it are the outer of two sequences.
  have hrest {x : Tree} {d : Cursor w} (hx : Derives rules frames g c (.success x d)) :
      Meets I A (Derives rules frames (.between g h k) c) (Parser.seqWith (fun x _ => x) q r d) := by
    apply Parser.meets_seqWith (hq d) (fun _ d' _ => hr d')
    · exact fun _ h => .contentFails hx h
    · exact fun _ _ _ h h' => .between hx h h'
  apply Parser.meets_seqWith (hp c) (fun x d hx => hrest hx)
  · exact fun _ h => .openingFails h
  · intro x d o _ ho
    cases o with
    | success y d' => exact ho
    | failure e => exact ho

/-- If deeper runs end with what is derived, so does the run of a grammar. -/
theorem Grammar.meets_evaluate {deeper : Frames → Grammar → Parser σ w Tree}
    (hd : ∀ frames g c, Meets I A (Derives rules frames g c) (deeper frames g c))
    (frames : Frames) (g : Grammar) (c : Cursor w) :
    Meets I A (Derives rules frames g c) (g.evaluate rules deeper frames c) := by
  induction g generalizing c with
  | terminal t => exact (t.meets_matches c).mono fun _ h => .terminal h
  | modify m g ih => exact m.meets_derives ih c
  | join k g h ih ih' => exact k.meets_derives ih ih' c
  | between g h k ih ih' ih'' => exact meets_between ih ih' ih'' c
  | bind g f ih =>
    apply Parser.meets_bind (ih c)
    · exact fun x d h => (hd frames (f x) d).mono fun _ h' => .bind h h'
    · exact fun _ h => .bindFails h
  | call name =>
    cases hr : frames.resolve? rules name with
    | some r =>
      obtain ⟨inner, body⟩ := r
      have ht : (call name).target? rules frames = some (inner, body) := hr
      rw [evaluate_of_target? ht]
      exact (hd inner body c).mono fun _ h => .unfold ht h
    | none =>
      unfold evaluate
      rw [hr]
      exact .pure (.unbound hr)
  | delay body => exact (hd frames body c).mono fun _ h => .unfold rfl h
  | recursive name body => exact (hd _ body c).mono fun _ h => .unfold rfl h

theorem Grammar.meets_unfolded (hA : A .cutOff) (depth : Nat) (frames : Frames) (g : Grammar)
    (c : Cursor w) : Meets I A (Derives rules frames g c)
      ((g.unfolded rules depth frames : Parser σ w Tree) c) := by
  induction depth generalizing frames g c with
  | zero => exact .stop hA
  | succ depth ih => exact meets_evaluate ih frames g c

end Descent
