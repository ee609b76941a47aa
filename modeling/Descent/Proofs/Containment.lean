import Descent.Execution
import Descent.Proofs.ErrorTree
import Descent.Proofs.Modifier
import Descent.Proofs.Terminal

namespace Descent
variable {σ : Type} {w : Input} {α β γ : Type}

/-- What is promised of an outcome at `c`. -/
def Outcome.SoundAt (c : Cursor w) : Outcome w α → Prop
  | success _ d => c.position ≤ d.position
  | failure e => e.TruthfulFrom w c.position

namespace Outcome.SoundAt

theorem map {f : α → β} {c : Cursor w} {o : Outcome w α} (h : o.SoundAt c) :
    (o.map f).SoundAt c := by
  cases o with
  | success x d => exact h
  | failure e => exact h

theorem of_le {c d : Cursor w} (hcd : c.position ≤ d.position) {o : Outcome w α}
    (h : o.SoundAt d) : o.SoundAt c := by
  cases o with
  | success x d' => exact Nat.le_trans hcd h
  | failure e => exact ParseError.TruthfulFrom.mono h hcd

theorem custom (reason : String) (c : Cursor w) :
    (failure (.custom reason c.position) : Outcome w α).SoundAt c :=
  ParseError.TruthfulFrom.custom c.le_size

theorem unexpectedEnd {c : Cursor w} (h : c.element? = none) :
    (failure (.unexpectedEnd c.position) : Outcome w α).SoundAt c := by
  show ParseError.TruthfulFrom w c.position (.unexpectedEnd c.position)
  rw [c.element?_eq_none_iff.mp h]
  exact ParseError.TruthfulFrom.unexpectedEnd

end Outcome.SoundAt

theorem Parser.tells_expectedFound_append {c : Cursor w} {x : Int} (h : c.element? = some x)
    (expected after : String) :
    ParseError.Tells w (expectedFound w expected x ++ after) c.position := by
  refine ⟨x, h, "expected " ++ expected ++ ", ", after, ?_⟩
  have hfound : ", found " = ", " ++ "found " := by decide
  rw [expectedFound, hfound]
  simp only [String.append_assoc]

theorem Parser.tells_expectedFound {c : Cursor w} {x : Int} (h : c.element? = some x)
    (expected : String) : ParseError.Tells w (expectedFound w expected x) c.position := by
  simpa using tells_expectedFound_append h expected ""

theorem Cursor.position_le_next (c : Cursor w) : c.position ≤ c.next.position := by
  have hle := c.le_size
  rw [next, advance_position]
  omega

theorem Spells.soundAt {whole rest : List Int} {c : Cursor w} {o : Outcome w (List Int)}
    (h : Spells whole rest c o) : o.SoundAt c := by
  induction h with
  | done => exact Nat.le_refl _
  | go hx _ ih => exact (ih.of_le (Cursor.position_le_next _)).map
  | differs hx hne =>
    refine ParseError.TruthfulFrom.literalMismatch ?_
    simpa only [String.append_assoc] using Parser.tells_expectedFound_append hx _ _
  | ended hx => exact .unexpectedEnd hx

theorem Terminal.Matches.soundAt {t : Terminal} {c : Cursor w} {o : Outcome w Tree}
    (h : t.Matches c o) : o.SoundAt c := by
  cases h with
  | accept hr hx ha => exact c.position_le_next
  | refuse hr hx ha =>
    have hx' := fun expected => Parser.tells_expectedFound hx expected
    cases hr with
    | any => exact absurd trivial ha
    | is => exact ParseError.TruthfulFrom.literalMismatch (hx' _)
    | range => exact ParseError.TruthfulFrom.rangeMismatch (hx' _)
    | oneOf => exact ParseError.TruthfulFrom.rangeMismatch (hx' _)
    | noneOf => exact ParseError.TruthfulFrom.rangeMismatch (hx' _)
    | satisfy => exact ParseError.TruthfulFrom.rangeMismatch (hx' _)
  | ended hr hx => exact .unexpectedEnd hx
  | atEnd hx => exact Nat.le_refl _
  | beforeEnd hx => exact ParseError.TruthfulFrom.literalMismatch (Parser.tells_expectedFound hx _)
  | fail => exact .custom _ c
  | succeed => exact Nat.le_refl _
  | literal hs => exact hs.soundAt.map

theorem Modifier.Turns.soundAt {m : Modifier} {c : Cursor w} {o o' : Outcome w Tree}
    (h : Turns c m o o') (ho : o.SoundAt c) : o'.SoundAt c := by
  cases h with
  | reject => exact .custom _ c
  | refuse => exact .custom _ c
  | presence => exact .custom _ c
  | absent => exact Nat.le_refl _
  | absence => exact Nat.le_refl _
  | _ => exact ho

theorem Repeats.soundAt {R : Cursor w → Outcome w α → Prop} (hR : ∀ c o, R c o → o.SoundAt c)
    {min : Nat} {max : Option Nat} {n : Nat} {c : Cursor w} {o : Outcome w (List α)}
    (h : Repeats R min max n c o) : o.SoundAt c := by
  induction h with
  | full => exact Nat.le_refl _
  | exceeds => exact .custom _ _
  | enough => exact Nat.le_refl _
  | nothing _ h => exact hR _ _ h
  | @tooFew _ c _ _ h hpos hlt =>
    exact ParseError.TruthfulFrom.repetitionBelowMinimum c.le_size hpos hlt (hR _ _ h)
  | more _ h _ _ ih => exact (ih.of_le (hR _ _ h)).map
  | stalled _ h => exact hR _ _ h

theorem Continues.position_le {R : Cursor w → Outcome w α → Prop}
    {S : Cursor w → Outcome w β → Prop} (hR : ∀ c x d, R c (.success x d) → c.position ≤ d.position)
    (hS : ∀ c y d, S c (.success y d) → c.position ≤ d.position) {c e : Cursor w} {xs : List α}
    (h : Continues R S c xs e) : c.position ≤ e.position := by
  induction h with
  | noSeparator => exact Nat.le_refl _
  | noItem => exact Nat.le_refl _
  | stalled => exact Nat.le_refl _
  | more h h' _ _ ih => exact Nat.le_trans (hS _ _ _ h) (Nat.le_trans (hR _ _ _ h') ih)

namespace Parser
open Run (Meets)

/-- From any store, a run ends with a sound outcome or is cut off; it never reads out of bounds. -/
def Sound (p : Parser σ w α) : Prop :=
  ∀ c, Meets (fun _ => True) (· = .cutOff) (Outcome.SoundAt c) (p c)

variable {p : Parser σ w α} {q : Parser σ w β}

theorem Sound.map {f : α → β} (hp : p.Sound) : (Parser.map f p).Sound := fun c =>
  meets_map ((hp c).mono fun _ h => h.map)

theorem Sound.bind {f : α → Parser σ w β} (hp : p.Sound) (hf : ∀ x, (f x).Sound) :
    (Parser.bind p f).Sound := fun c =>
  meets_bind (hp c) (fun x d h => (hf x d).mono fun _ ho => ho.of_le h) fun _ h => h

theorem Sound.seqWith {keep : α → β → γ} (hp : p.Sound) (hq : q.Sound) :
    (Parser.seqWith keep p q).Sound := fun c =>
  meets_seqWith (hp c) (fun _ d _ => hq d) (fun _ h => h) fun _ _ _ h ho => (ho.of_le h).map

theorem Sound.between {r : Parser σ w γ} (hp : p.Sound) (hq : q.Sound) (hr : r.Sound) :
    (Parser.between p q r).Sound := by
  rw [between_eq]
  exact hp.seqWith (hq.seqWith hr)

theorem Sound.orWith {left : α → γ} {right : β → γ} (hp : p.Sound) (hq : q.Sound) :
    (Parser.orWith left right p q).Sound := fun c =>
  meets_orWith (hp c) (fun _ _ => hq c) (fun _ _ h => h) (fun _ _ _ _ h => h) fun _ _ h h' =>
    .alternativesExhausted c.le_size h h'

theorem Sound.repeated (min : Nat) (max : Option Nat) (hp : p.Sound) :
    (Parser.repeated min max p).Sound := by
  intro c
  refine (repeatFrom_sound hp min max #[] c).mono ?_
  rintro _ ⟨o, hr, rfl⟩
  exact (hr.soundAt fun _ _ h => h).map

theorem Sound.separatedList (hp : p.Sound) (hq : q.Sound) : (Parser.separatedList p q).Sound := by
  intro c
  refine meets_cases (hp c) (fun x d h => ?_) fun e h => .pure h
  refine (separatedFrom_sound hp hq (fun _ _ _ h => h) (fun _ _ _ h => h) #[x] d).mono ?_
  rintro _ ⟨xs, e, hc, rfl⟩
  exact Nat.le_trans h (hc.position_le (fun _ _ _ h => h) fun _ _ _ h => h)

end Parser

theorem Terminal.sound (t : Terminal) : (t.parser : Parser σ w Tree).Sound := fun c =>
  (t.meets_matches c).mono fun _ h => h.soundAt

theorem Modifier.sound {p : Parser σ w Tree} (m : Modifier) (hp : p.Sound) : (m.apply p).Sound := by
  cases m with
  | repeated min max => exact (hp.repeated min max).map
  | _ =>
    intro c
    refine (meets_apply (fun _ _ h => by cases h) (hp c)).mono ?_
    rintro o' ⟨o, ho, ht⟩
    exact ht.soundAt ho

theorem Connective.sound {p q : Parser σ w Tree} (k : Connective) (hp : p.Sound) (hq : q.Sound) :
    (k.apply p q).Sound := by
  cases k with
  | sequence keep => exact hp.seqWith hq
  | choice choose => exact hp.orWith hq
  | separatedList => exact (hp.separatedList hq).map

section
variable {deeper : List Nat → Assembled → Parser Store w Tree}

theorem Store.meets_force {A : Stop → Prop} (hA : A .cutOff) (i : Nat) :
    Run.Meets (fun _ => True) A (fun _ => True) (Store.force i) := by
  refine Run.Meets.get.bind fun t _ => ?_
  cases t.store.cells[i]? with
  | none => exact .stop hA
  | some cell =>
    dsimp only
    cases cell.parser? with
    | some p => exact .pure trivial
    | none => exact (Run.Meets.record _).bind fun _ _ => .onStore fun _ _ => ⟨trivial, trivial⟩

theorem Handle.sound_follow (hd : ∀ running p, (deeper running p).Sound) (running : List Nat)
    (h : Handle) : (h.follow deeper running).Sound := by
  intro c
  refine Run.Meets.get.bind fun t _ => ?_
  split
  · exact .pure (.custom _ c)
  · exact (Store.meets_force (A := (· = .cutOff)) rfl h.cell).bind fun p _ => hd _ p c

theorem Grammar.sound_follow (hd : ∀ running p, (deeper running p).Sound) (running : List Nat)
    (scope : Scope) (g : Grammar) : (g.follow deeper running scope).Sound := by
  intro c
  have hassemble : Run.Meets (fun _ => True) (· = .cutOff) (fun _ => True)
      (Run.onStore (g.assemble scope)) := .onStore fun _ _ => ⟨trivial, trivial⟩
  exact hassemble.bind fun p _ => hd _ p c

theorem Assembled.sound_interpret (hd : ∀ running p, (deeper running p).Sound)
    (running : List Nat) (p : Assembled) : (p.interpret deeper running).Sound := by
  induction p with
  | terminal t => exact t.sound
  | modify m p ih => exact m.sound ih
  | join k p q ihp ihq => exact k.sound ihp ihq
  | between p q r ihp ihq ihr => exact ihp.between ihq ihr
  | bind p scope f ih => exact ih.bind fun x => (f x).sound_follow hd running scope
  | refer h => exact h.sound_follow hd running

theorem Assembled.sound_run (depth : Nat) (running : List Nat) (p : Assembled) :
    (p.run depth running : Parser Store w Tree).Sound := by
  induction depth generalizing running p with
  | zero => exact fun _ => .stop rfl
  | succ depth ih => exact p.sound_interpret ih running

end

theorem Handle.parser_sound (depth : Nat) (h : Handle) :
    (h.parser depth : Parser Store w Tree).Sound :=
  h.sound_follow (fun running p => p.sound_run depth running) []

theorem Grammar.parser_sound (depth : Nat) (g : Grammar) :
    (g.parser depth : Parser Store w Tree).Sound :=
  g.sound_follow (fun running p => p.sound_run depth running) [] []

theorem Cursor.remaining_eq_drop (c : Cursor w) :
    c.remaining = w.codes.toList.drop c.position := by
  rw [remaining, Input.slice_eq]
  exact List.take_of_length_le (by simp [Input.size])

theorem Cursor.length_remaining (c : Cursor w) : c.remaining.length = w.size - c.position := by
  rw [remaining_eq_drop, List.length_drop]
  rfl

theorem Cursor.remaining_eq_append {c d : Cursor w} (h : c.position ≤ d.position) :
    c.remaining = d.sliceFrom c.position ++ d.remaining := by
  rw [remaining_eq_drop, remaining_eq_drop, sliceFrom, Nat.min_eq_left h, Input.slice_eq]
  calc w.codes.toList.drop c.position
      = (w.codes.toList.drop c.position).take (d.position - c.position) ++
          (w.codes.toList.drop c.position).drop (d.position - c.position) :=
        (List.take_append_drop _ _).symm
    _ = _ := by rw [List.drop_drop, Nat.add_sub_cancel' h]

/-- In every store a parse that fails has a truthful error: each node of its tree lies between the
start and the end of the input and not before the node above it, an unexpected end lies at the end,
a mismatch tells the element at its place, and a repetition counts fewer matches than it needs. So
the furthest leaf does not lie before the error, and a report looks where it says. -/
theorem failure_truthful (depth : Nat) (g : Grammar) (c : Cursor w) {t u : Trail Store}
    {e : ParseError} (h : g.parser depth c t = .ok (.failure e, u)) :
    (∀ n ∈ e.nodes, c.position ≤ n.position ∧ n.position ≤ w.size ∧
      (∀ m ∈ n.nodes, n.position ≤ m.position) ∧ n.Holds w) ∧
    e.position ≤ e.furthest.position ∧
    (Cursor.clamp w e.furthest.position).position = e.furthest.position := by
  have hs := g.parser_sound depth c t trivial
  rw [h] at hs
  have he : e.TruthfulFrom w c.position := hs.1
  refine ⟨he, he.position_le_furthest, Nat.min_eq_left ?_⟩
  exact (he _ e.furthest_mem_nodes).2.1

theorem failure_truthful_alternatives :
    let w : Input := ⟨.byte, #[97, 99], by decide⟩
    let g := ((Grammar.is 97).andThen (.is 98)).orElse ((Grammar.literal [97, 99]).andThen .any)
    let e := ParseError.alternativesExhausted 0 (.literalMismatch "expected 'b', found 'c'" 1)
      (.unexpectedEnd 2)
    g.parser 1 (Cursor.start w) ⟨#[], {}⟩ = .ok (.failure e, ⟨#[], {}⟩) ∧
      (∀ n ∈ e.nodes, 0 ≤ n.position ∧ n.position ≤ w.size ∧
        (∀ m ∈ n.nodes, n.position ≤ m.position) ∧ n.Holds w) ∧
      e.position ≤ e.furthest.position ∧
      (Cursor.clamp w e.furthest.position).position = e.furthest.position := by
  intro w g e
  have hreason : Parser.expectedFound w (w.kind.describe 98) 99 = "expected 'b', found 'c'" := by
    decide
  have h : g.parser 1 (Cursor.start w) ⟨#[], {}⟩ = .ok (.failure e, ⟨#[], {}⟩) := by
    dsimp only [e]
    rw [← hreason]
    rfl
  exact ⟨h, failure_truthful 1 g (Cursor.start w) h⟩

/-- In every store a parse that succeeds stops in the same input, not before its start, and what it
consumed and what it left make up what it was given. No parse reads out of bounds. -/
theorem success_contained (depth : Nat) (g : Grammar) (c : Cursor w) (t : Trail Store) :
    (∀ x d u, g.parser depth c t = .ok (.success x d, u) →
      c.position ≤ d.position ∧ d.position ≤ w.size ∧
        c.remaining = d.sliceFrom c.position ++ d.remaining) ∧
    g.parser depth c t ≠ .error .outOfBounds := by
  have hs := g.parser_sound depth c t trivial
  constructor
  · intro x d u h
    rw [h] at hs
    have hle : c.position ≤ d.position := hs.1
    exact ⟨hle, d.le_size, Cursor.remaining_eq_append hle⟩
  · intro h
    rw [h] at hs
    cases hs

theorem success_contained_letters :
    let w : Input := ⟨.byte, #[98, 97, 97], by decide⟩
    let c : Cursor w := ⟨1, by decide⟩
    let d : Cursor w := ⟨3, by decide⟩
    let g := (Grammar.literal [97]).andThen (.is 97)
    g.parser 1 c ⟨#[], {}⟩ = .ok (.success (.pair (.slice [97]) (.element 97)) d, ⟨#[], {}⟩) ∧
      c.remaining = d.sliceFrom c.position ++ d.remaining := by
  intro w c d g
  have h : g.parser 1 c ⟨#[], {}⟩ =
      .ok (.success (.pair (.slice [97]) (.element 97)) d, ⟨#[], {}⟩) := rfl
  exact ⟨h, ((success_contained 1 g c ⟨#[], {}⟩).1 _ d _ h).2.2⟩

end Descent
