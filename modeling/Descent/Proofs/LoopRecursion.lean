import Descent.Grammar.Action
import Descent.Proofs.Fixpoint
import Descent.Proofs.LeftRecursion
import Descent.Proofs.LoopEquation
import Descent.Proofs.Repetition

namespace Descent
variable {σ : Type} {w : Input} {α : Type}

namespace Parser

section
variable {p : Parser σ w α} {f : Cursor w → Outcome w α} {mark : Cursor w → Trail σ → Trail σ}

theorem IsPure.advances (hp : p.IsPure f mark)
    (hf : ∀ c x d, f c = .success x d → c.position < d.position) : p.Advances := by
  intro c t x d u h
  rw [hp] at h
  exact hf c x d (Prod.mk.inj (Except.ok.inj h)).1

/-- Whatever is defined by matching once more or stopping always ends as the repetition does. -/
theorem IsPure.eq_many (hp : p.IsPure f mark)
    (hf : ∀ c x d, f c = .success x d → c.position < d.position) {rest : Parser σ w (List α)}
    (hrest : ∀ c t, (rest c t).map (·.1) = (p.oneMore rest c t).map (·.1)) (c : Cursor w)
    (t : Trail σ) : ∃ xs d, (many p c t).map (·.1) = .ok (.success xs d) ∧
      (rest c t).map (·.1) = .ok (.success xs d) := by
  rw [many_eq (hp.advances hf), hrest]
  induction c using Cursor.backward_induction generalizing t with
  | step c ih =>
  cases hc : f c with
  | failure e =>
    have h : p c t = .ok (.failure e, mark c t) := by rw [hp, hc]
    rw [oneMore_of_failure h, oneMore_of_failure h]
    exact ⟨[], c, rfl, rfl⟩
  | success x d =>
    have h : p c t = .ok (.success x d, mark c t) := by rw [hp, hc]
    obtain ⟨xs, d', hmany, hrec⟩ := ih d (hf c x d hc) (mark c t)
    rw [← many_eq (hp.advances hf)] at hmany
    rw [← hrest] at hrec
    obtain ⟨u, hmany⟩ := Run.exists_trail_iff.mpr hmany
    obtain ⟨u', hrec⟩ := Run.exists_trail_iff.mpr hrec
    rw [oneMore_of_success h hmany, oneMore_of_success h hrec]
    exact ⟨x :: xs, d', rfl, rfl⟩

end

theorem map_list_seqWith (p : Parser σ w Tree) (rest : Parser σ w (List Tree)) :
    Parser.map Tree.list (Parser.map (fun x => x.1 :: x.2) (seqWith Prod.mk p rest)) =
      Parser.map Grammar.cons (seqWith Keep.both.combine p (Parser.map .list rest)) := by
  simp only [map_eq_bind, seqWith_eq_bind, bind_bind, succeed_bind]
  rfl

theorem map_list_oneMore (p : Parser σ w Tree) (rest : Parser σ w (List Tree)) :
    Parser.map Tree.list (p.oneMore rest) =
      orWith Choose.same.onLeft Choose.same.onRight
        (Parser.map Grammar.cons (seqWith Keep.both.combine p (Parser.map .list rest)))
        (succeed (.list [])) := by
  rw [← map_list_seqWith]
  funext c
  unfold oneMore orWith
  generalize Parser.map (fun x => x.1 :: x.2) (seqWith Prod.mk p rest) = q
  simp only [Parser.map, bind_assoc]
  refine bind_congr fun o => ?_
  cases o <;> rfl

end Parser

namespace Grammar
open Run (Meets)
variable {rules : List (String × Grammar)} {frames : Frames} {g h : Grammar} {c : Cursor w}
variable {o : Outcome w Tree}

/-- One match of `g` and then the list of `rest`, or an empty list. -/
def oneMore (g rest : Grammar) : Grammar :=
  ((g.andThen rest).map cons).orElse (succeed (.list []))

/-- What runs alike one level deep or more derives the same. -/
theorem derives_iff_of_unfolded_eq
    (hrun : ∀ depth, (g.unfolded rules (depth + 1) frames : Parser Unit w Tree) =
      h.unfolded rules (depth + 1) frames) :
    Derives rules frames g c o ↔ Derives rules frames h c o := by
  have hrun' (depth : Nat) : (g.unfolded rules depth frames : Parser Unit w Tree) =
      h.unfolded rules depth frames := by
    cases depth with
    | zero => rfl
    | succ depth => exact hrun depth
  simp only [derives_iff_unfolded, hrun']

theorem derives_optional_iff : Derives rules frames g.optional c o ↔
    Derives rules frames ((g.map .present).orElse (succeed .absent)) c o := by
  refine derives_iff_of_unfolded_eq fun depth => ?_
  show Parser.map Tree.ofOption (Parser.optional (g.unfolded rules (depth + 1) frames)) =
    Parser.orWith Choose.same.onLeft Choose.same.onRight
      (Parser.map .present (g.unfolded rules (depth + 1) frames)) (Parser.succeed .absent)
  rw [Parser.optional_eq]
  funext c
  simp only [Parser.map, Parser.orWith, bind_assoc]
  refine bind_congr fun o => ?_
  cases o <;> rfl

theorem advances_of_not_nullable (hg : ¬Nullable rules frames g) (c : Cursor w) (x : Tree)
    (d : Cursor w) (h : Derives rules frames g c (.success x d)) : c.position < d.position := by
  by_contra hle
  exact hg (h.nullable x d rfl (Nat.le_of_not_lt hle))

section
variable (hadvance : ∀ (c : Cursor w) x d, Derives rules frames g c (.success x d) →
  c.position < d.position)
include hadvance

theorem advances_unfolded (depth : Nat) :
    (g.unfolded rules depth frames : Parser Unit w Tree).Advances := by
  intro c t x d u hrun
  have hm : Meets (fun _ => True) (fun _ => True) (Derives rules frames g c)
      ((g.unfolded rules depth frames : Parser Unit w Tree) c) :=
    meets_unfolded trivial depth frames g c
  exact hadvance c x d (hm.of_ok trivial hrun)

theorem derives_many_iff :
    Derives rules frames g.many c o ↔ Derives rules frames (g.oneMore g.many) c o := by
  refine derives_iff_of_unfolded_eq fun depth => ?_
  show Parser.map Tree.list (Parser.many (g.unfolded rules (depth + 1) frames)) = _
  rw [Parser.many_eq (advances_unfolded hadvance (depth + 1)), Parser.map_list_oneMore]
  rfl

theorem derives_some_iff :
    Derives rules frames g.some c o ↔ Derives rules frames ((g.andThen g.many).map cons) c o := by
  refine derives_iff_of_unfolded_eq fun depth => ?_
  show Parser.map Tree.list (Parser.some (g.unfolded rules (depth + 1) frames)) = _
  rw [Parser.some_eq (advances_unfolded hadvance (depth + 1)), Parser.map_list_seqWith]
  rfl

theorem exists_derives_many (hg : ∀ c : Cursor w, ∃ o, Derives rules frames g c o)
    (c : Cursor w) : ∃ xs d, Derives rules frames g.many c (.success (.list xs) d) := by
  induction c using Cursor.backward_induction with
  | step c ih =>
  obtain ⟨o, ho⟩ := hg c
  cases o with
  | failure e =>
    have hfails : Derives rules frames ((g.andThen g.many).map cons) c (.failure e) :=
      .modify (.sequenceFails ho) (.fails trivial)
    exact ⟨[], c, (derives_many_iff hadvance).mpr (.choiceRight hfails (.terminal .succeed))⟩
  | success x d =>
    obtain ⟨xs, d', hrest⟩ := ih d (hadvance c x d ho)
    have hcons : Derives rules frames ((g.andThen g.many).map cons) c
        (.success (.list (x :: xs)) d') :=
      .modify (.sequence ho hrest) .map
    exact ⟨x :: xs, d', (derives_many_iff hadvance).mpr (.choiceLeft hcons)⟩

end

theorem derives_iff_of_target? {K : Closure} (hK : g.target? rules frames = some K) :
    Derives rules frames g c o ↔ Derives rules K.1 K.2 c o := by
  refine ⟨fun ho => ?_, .unfold hK⟩
  obtain ⟨depth, trail, hrun⟩ := derives_iff_unfolded.mp ho
  cases depth with
  | zero => cases hrun
  | succ depth =>
    rw [unfolded, evaluate_of_target? hK] at hrun
    exact derives_iff_unfolded.mpr ⟨depth, trail, hrun⟩

section
variable {frames' : Frames} {h' : Grammar}

theorem derives_oneMore_congr (hg : ∀ o, Derives rules frames g c o → Derives rules frames' g c o)
    (hrest : ∀ x d, Derives rules frames g c (.success x d) →
      ∀ o, Derives rules frames h d o → Derives rules frames' h' d o)
    (ho : Derives rules frames (g.oneMore h) c o) : Derives rules frames' (g.oneMore h') c o := by
  obtain ⟨depth, trail, hrun⟩ := derives_iff_unfolded.mp ho
  cases depth with
  | zero => cases hrun
  | succ depth =>
    let run (k : Grammar) : Parser Unit w Tree := k.evaluate rules (unfolded rules depth) frames
    have hpart (k : Grammar) (d : Cursor w) : Meets (fun _ => True) (fun _ => True)
        (Derives rules frames k d) (run k d) :=
      meets_evaluate (meets_unfolded trivial depth) frames k d
    have hseq : Meets (fun _ => True) (fun _ => True) (Derives rules frames' (g.andThen h') c)
        (Parser.seqWith Keep.both.combine (run g) (run h) c) :=
      Parser.meets_seqWith (hpart g c) (fun _ d _ => hpart h d)
        (fun _ he => .sequenceFails (hg _ he))
        fun x d o hx ho => .sequence (hg _ hx) (hrest x d hx o ho)
    have hmap : Meets (fun _ => True) (fun _ => True)
        (Derives rules frames' ((g.andThen h').map cons) c)
        (run ((g.andThen h).map cons) c) :=
      (Modifier.meets_apply (fun _ _ h => by cases h) hseq).mono fun _ ⟨_, ho, ht⟩ => .modify ho ht
    have hempty : Meets (fun _ => True) (fun _ => True)
        (Derives rules frames' (succeed (.list [])) c) (run (succeed (.list [])) c) :=
      (Terminal.meets_matches _ c).mono fun _ ht => .terminal ht
    have hall : Meets (fun _ => True) (fun _ => True) (Derives rules frames' (g.oneMore h') c)
        (run (g.oneMore h) c) := by
      apply Parser.meets_orWith hmap fun _ _ => hempty
      · exact fun _ _ hl => .choiceLeft hl
      · exact fun _ _ _ hl hr => .choiceRight hl hr
      · exact fun _ _ hl hr => .choiceFails hl hr
    exact hall.of_ok trivial hrun

/-- Where every match of `g` advances, what derives no more than its own turn is derived by whatever
derives no less than its own. -/
theorem derives_of_oneMore
    (hadvance : ∀ (c : Cursor w) x d, Derives rules frames g c (.success x d) →
      c.position < d.position)
    (hg : ∀ (c : Cursor w) o, Derives rules frames g c o → Derives rules frames' g c o)
    (hh : ∀ (c : Cursor w) o, Derives rules frames h c o → Derives rules frames (g.oneMore h) c o)
    (hh' : ∀ (c : Cursor w) o, Derives rules frames' (g.oneMore h') c o →
      Derives rules frames' h' c o)
    (ho : Derives rules frames h c o) : Derives rules frames' h' c o := by
  induction c using Cursor.backward_induction generalizing o with
  | step c ih =>
  have hturn : Derives rules frames' (g.oneMore h') c o :=
    derives_oneMore_congr (hg c) (fun x d hx _ => ih d (hadvance c x d hx)) (hh c o ho)
  exact hh' c o hturn

end

theorem derives_many_iff_recursive {name : String} (hname : ¬g.Calls name)
    (hadvance : ∀ (c : Cursor w) x d, Derives rules frames g c (.success x d) →
      c.position < d.position) :
    Derives rules frames g.many c o ↔
      Derives rules frames (recursive name (g.oneMore (call name))) c o := by
  -- In the definition one name more is known, which `g` does not call.
  let inner : Frames := (name, g.oneMore (call name)) :: frames
  have hresolve (other : String) (h : g.Calls other) :
      Frames.resolve? rules other inner = Frames.resolve? rules other frames := by
    apply Frames.resolve?_cons_of_ne
    rintro rfl
    exact hname h
  have henter (c : Cursor w) (o : Outcome w Tree) (h : Derives rules frames g c o) :
      Derives rules inner g c o :=
    h.of_resolve?_eq hresolve
  have hleave (c : Cursor w) (o : Outcome w Tree) (h : Derives rules inner g c o) :
      Derives rules frames g c o :=
    h.of_resolve?_eq fun other hother => (hresolve other hother).symm
  have hcall {c : Cursor w} {o : Outcome w Tree} : Derives rules inner (call name) c o ↔
      Derives rules inner (g.oneMore (call name)) c o :=
    derives_iff_of_target? (K := (inner, _)) (Frames.resolve?_cons_self rules name _ frames)
  have hrecursive : Derives rules frames (recursive name (g.oneMore (call name))) c o ↔
      Derives rules inner (g.oneMore (call name)) c o :=
    derives_iff_of_target? (K := (inner, _)) rfl
  rw [hrecursive, ← hcall]
  constructor
  · exact derives_of_oneMore hadvance henter (fun _ _ => (derives_many_iff hadvance).mp)
      fun _ _ => hcall.mpr
  · exact derives_of_oneMore (fun c x d h => hadvance c x d (hleave c _ h)) hleave
      (fun _ _ => hcall.mp) fun _ _ => (derives_many_iff hadvance).mpr

end Grammar

/-- For parsers whose matches all advance, the loop is what is defined by one match and then itself,
or nothing. Nothing else is so defined; in particular a recursive definition in a grammar returns the
list and the end that the loop returns, which there always are if the repeated part always
returns. At least one match is one match and then the loop. At most one match, whether it
advances or not, is the choice between its value and none. -/
theorem loops_as_recursion :
    (∀ {σ α : Type} {w : Input} (p : Parser σ w α) f mark, p.IsPure f mark →
      ((∀ c x d, f c = .success x d → c.position < d.position) →
        p.many = p.oneMore p.many ∧
        (∀ rest : Parser σ w (List α),
          (∀ c t, (rest c t).map (·.1) = (p.oneMore rest c t).map (·.1)) →
          ∀ c t, ∃ xs d, (p.many c t).map (·.1) = .ok (.success xs d) ∧
            (rest c t).map (·.1) = .ok (.success xs d)) ∧
        p.some = Parser.map (fun x => x.1 :: x.2) (Parser.seqWith Prod.mk p p.many)) ∧
      p.optional = Parser.orWith id id (Parser.map Option.some p) (Parser.succeed none)) ∧
    ∀ {w : Input} (rules : List (String × Grammar)) (log : Array Record) (g : Grammar),
      ((∀ (c : Cursor w) x d, g.Returns rules log c (.success x d) → c.position < d.position) →
        (∀ name, ¬g.Calls name → ∀ (c : Cursor w) o, g.many.Returns rules log c o ↔
          (Grammar.recursive name (g.oneMore (.call name))).Returns rules log c o) ∧
        ((∀ c : Cursor w, ∃ o, g.Returns rules log c o) →
          ∀ c : Cursor w, ∃ xs d, g.many.Returns rules log c (.success (.list xs) d)) ∧
        ∀ (c : Cursor w) o, g.some.Returns rules log c o ↔
          ((g.andThen g.many).map Grammar.cons).Returns rules log c o) ∧
      ∀ (c : Cursor w) o, g.optional.Returns rules log c o ↔
        ((g.map .present).orElse (.succeed .absent)).Returns rules log c o := by
  simp only [Grammar.returns_iff_derives]
  refine ⟨fun p f mark hp => ⟨fun hf => ⟨?_, ?_, ?_⟩, p.optional_eq⟩,
    fun rules log g => ⟨fun hadvance => ⟨?_, ?_, ?_⟩, ?_⟩⟩
  · exact Parser.many_eq (hp.advances hf)
  · exact fun rest hrest c t => hp.eq_many hf hrest c t
  · exact Parser.some_eq (hp.advances hf)
  · exact fun name hname c o => Grammar.derives_many_iff_recursive hname hadvance
  · exact fun hg c => Grammar.exists_derives_many hadvance hg c
  · exact fun c o => Grammar.derives_some_iff hadvance
  · exact fun c o => Grammar.derives_optional_iff

/-- The letters at the start, by a loop, by as many copies of one match as suffice, and by a recursive
grammar. -/
theorem loops_as_recursion_letters :
    let w : Input := ⟨.byte, #[97, 97, 98], by decide⟩
    let f : Cursor w → Outcome w Int := fun c =>
      if c.element? = some 97 then .success 97 c.next else .failure (.unexpectedEnd c.position)
    let p : Parser Unit w Int := fun c t => .ok (f c, t)
    let rest := p.oneMore (p.oneMore (p.oneMore (Parser.succeed [])))
    let g := Grammar.is 97
    let o : Outcome w Tree := .success (.list [.element 97, .element 97]) ⟨2, by decide⟩
    let c := Cursor.start w
    p.IsPure f (fun _ t => t) ∧ (∀ c x d, f c = .success x d → c.position < d.position) ∧
      (∀ c t, (rest c t).map (·.1) = (p.oneMore rest c t).map (·.1)) ∧
      (∃ xs d, (p.many c ⟨#[], ()⟩).map (·.1) = .ok (.success xs d) ∧
        (rest c ⟨#[], ()⟩).map (·.1) = .ok (.success xs d)) ∧
      (∀ (c : Cursor w) x d, g.Returns [] #[] c (.success x d) → c.position < d.position) ∧
      ¬g.Calls "letters" ∧ (∀ c : Cursor w, ∃ o, g.Returns [] #[] c o) ∧
      (Grammar.recursive "letters" (g.oneMore (.call "letters"))).Returns [] #[] c o ∧
      g.many.Returns [] #[] c o ∧
      (∃ xs d, g.many.Returns [] #[] c.next (.success (.list xs) d)) := by
  intro w f p rest g o c
  have hp : p.IsPure f (fun _ t => t) := fun _ _ => rfl
  have hf (c : Cursor w) (x : Int) (d : Cursor w) (h : f c = .success x d) :
      c.position < d.position := by
    dsimp only [f] at h
    split at h
    case isTrue hx =>
      cases h
      rw [Cursor.next_position_of_element? hx]
      exact Nat.lt_succ_self _
    case isFalse => cases h
  have hrest (c : Cursor w) (t : Trail Unit) :
      (rest c t).map (·.1) = (p.oneMore rest c t).map (·.1) := by
    obtain ⟨n, hn⟩ := c
    change n ≤ 3 at hn
    interval_cases n <;> dsimp only [rest, p, f] <;> cbv
  have hadvance (c : Cursor w) (x : Tree) (d : Cursor w) (h : g.Returns [] #[] c (.success x d)) :
      c.position < d.position := by
    have h' := Grammar.returns_iff_derives.mp h
    refine Grammar.advances_of_not_nullable (fun hnull => ?_) c x d h'
    change Nullable [] [] (.terminal (.is 97)) at hnull
    cases hnull with
    | unfold ht => cases ht
  have hg (c : Cursor w) : ∃ o, g.Returns [] #[] c o := by
    simp only [Grammar.returns_iff_derives]
    cases hx : c.element? with
    | none => exact ⟨_, .terminal (.ended .is hx)⟩
    | some x =>
      by_cases hsame : x = 97
      · exact ⟨_, .terminal (.accept .is hx hsame)⟩
      · exact ⟨_, .terminal (.refuse .is hx hsame)⟩
  have hrun : ((Grammar.recursive "letters" ((Grammar.is 97).oneMore (.call "letters"))).parser 9
      (Cursor.start w) ⟨#[], Store.ofRules []⟩).map (·.1) = .ok o := by
    cbv
  have hreturns : (Grammar.recursive "letters" (g.oneMore (.call "letters"))).Returns [] #[] c o :=
    ⟨9, Run.exists_trail_iff.mpr hrun⟩
  obtain ⟨hparsers, hgrammars⟩ := loops_as_recursion
  have hunique := ((hparsers p f _ hp).1 hf).2.1 rest hrest c ⟨#[], ()⟩
  obtain ⟨hmany, htotal, -⟩ := (hgrammars [] #[] g).1 hadvance
  have hname : ¬g.Calls "letters" := id
  exact ⟨hp, hf, hrest, hunique, hadvance, hname, hg, hreturns,
    (hmany "letters" hname c o).mpr hreturns, htotal hg c.next⟩

end Descent
