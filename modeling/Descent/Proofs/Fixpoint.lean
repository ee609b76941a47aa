import Mathlib
import Descent.Proofs.Bisimulation

namespace Descent
variable {w : Input} {rules : List (String × Grammar)}

/-- `Unrolls rules F g g'`: among the definitions `F` and `rules`, `g'` is `g` with copies of bodies in
place of some calls, which may be unrolled themselves, and with some parts delayed. -/
inductive Grammar.Unrolls (rules : List (String × Grammar)) : Frames → Grammar → Grammar → Prop
  | terminal {F t} : Unrolls rules F (terminal t) (terminal t)
  | modify {F m g g'} : Unrolls rules F g g' → Unrolls rules F (modify m g) (modify m g')
  | join {F k g h g' h'} : Unrolls rules F g g' → Unrolls rules F h h' →
      Unrolls rules F (join k g h) (join k g' h')
  | between {F g h k g' h' k'} : Unrolls rules F g g' → Unrolls rules F h h' →
      Unrolls rules F k k' → Unrolls rules F (between g h k) (between g' h' k')
  | bind {F g g' f f'} : Unrolls rules F g g' → (∀ x, Unrolls rules F (f x) (f' x)) →
      Unrolls rules F (bind g f) (bind g' f')
  | call {F name} : Unrolls rules F (call name) (call name)
  | delay {F body body'} : Unrolls rules F body body' → Unrolls rules F (delay body) (delay body')
  | recursive {F name body body'} : Unrolls rules ((name, body) :: F) body body' →
      Unrolls rules F (recursive name body) (recursive name body')
  | delayed {F g g'} : Unrolls rules F g g' → Unrolls rules F g (delay g')
  /-- A copy must not call what is defined between the definition and the call. -/
  | copied {F skipped inner name body g'} : F = skipped ++ inner →
      F.resolve? rules name = some (inner, body) → Unrolls rules inner body g' →
      (∀ f ∈ skipped, ¬g'.Calls f.1) → Unrolls rules F (call name) g'
  /-- The body of a registered definition calls the definition by its name. -/
  | opened {name body g'} : rules.reverse.lookup name = some (recursive name body) →
      Unrolls rules [(name, body)] body g' → Unrolls rules [] (recursive name body) g'

/-- The definitions around a grammar and around what it has been unrolled to. A registered
definition that has been opened is around the first only. -/
inductive Frames.Unrolls (rules : List (String × Grammar)) : Frames → Frames → Prop
  | nil : Unrolls rules [] []
  | cons {name body body' F F'} : Grammar.Unrolls rules ((name, body) :: F) body body' →
      Unrolls rules F F' → Unrolls rules ((name, body) :: F) ((name, body') :: F')
  | opened {name body} : rules.reverse.lookup name = some (.recursive name body) →
      Unrolls rules [(name, body)] []

def Closure.Unrolls (rules : List (String × Grammar)) (K K' : Closure) : Prop :=
  Frames.Unrolls rules K.1 K'.1 ∧ Grammar.Unrolls rules K.1 K.2 K'.2

theorem Grammar.Unrolls.refl (F : Frames) (g : Grammar) : Unrolls rules F g g := by
  induction g generalizing F with
  | terminal t => exact .terminal
  | modify m g ih => exact .modify (ih F)
  | join k g h ih ih' => exact .join (ih F) (ih' F)
  | between g h k ih ih' ih'' => exact .between (ih F) (ih' F) (ih'' F)
  | bind g f ih ihf => exact .bind (ih F) fun x => ihf x F
  | call name => exact .call
  | delay body ih => exact .delay (ih F)
  | recursive name body ih => exact .recursive (ih _)

namespace Frames

theorem resolve?_append {skipped inner : Frames} {name : String}
    (h : ∀ f ∈ skipped, f.1 ≠ name) :
    (skipped ++ inner).resolve? rules name = inner.resolve? rules name := by
  induction skipped with
  | nil => rfl
  | cons f rest ih =>
    obtain ⟨n, body⟩ := f
    have hne : name ≠ n := Ne.symm (h _ List.mem_cons_self)
    rw [List.cons_append, resolve?_cons_of_ne rules hne]
    exact ih fun f hf => h f (List.mem_cons_of_mem _ hf)

namespace Unrolls
variable {F F' : Frames}

theorem split (h : Unrolls rules F F') {skipped inner : Frames} (hF : F = skipped ++ inner) :
    ∃ skipped' inner', F' = skipped' ++ inner' ∧ Unrolls rules inner inner' ∧
      ∀ f' ∈ skipped', ∃ f ∈ skipped, f.1 = f'.1 := by
  induction h generalizing skipped with
  | nil =>
    obtain ⟨rfl, rfl⟩ := List.append_eq_nil_iff.mp hF.symm
    exact ⟨[], [], rfl, .nil, List.forall_mem_nil _⟩
  | @cons name body body' F F' hbody houter ih =>
    cases skipped with
    | nil =>
      cases hF
      exact ⟨[], _, rfl, .cons hbody houter, List.forall_mem_nil _⟩
    | cons f rest =>
      obtain ⟨rfl, hrest⟩ := List.cons.inj hF
      obtain ⟨skipped', inner', rfl, hinner, hnames⟩ := ih hrest
      refine ⟨(name, body') :: skipped', inner', rfl, hinner, fun f' hf' => ?_⟩
      rcases List.mem_cons.mp hf' with rfl | hf'
      · exact ⟨_, List.mem_cons_self, rfl⟩
      · obtain ⟨f, hf, hname⟩ := hnames f' hf'
        exact ⟨f, List.mem_cons_of_mem _ hf, hname⟩
  | @opened name body hname =>
    cases skipped with
    | nil =>
      cases hF
      exact ⟨[], [], rfl, .opened hname, List.forall_mem_nil _⟩
    | cons f rest =>
      obtain ⟨rfl, hrest⟩ := List.cons.inj hF
      obtain ⟨rfl, rfl⟩ := List.append_eq_nil_iff.mp hrest.symm
      exact ⟨[], [], rfl, .nil, List.forall_mem_nil _⟩

end Unrolls

end Frames

namespace Grammar

abbrev UnrollsAll (rules rules' : List (String × Grammar)) : Prop :=
  List.Forall₂ (fun r r' => r.1 = r'.1 ∧ Unrolls rules [] r.2 r'.2) rules rules'

theorem UnrollsAll.refl (rules : List (String × Grammar)) : UnrollsAll rules rules :=
  List.forall₂_same.mpr fun r _ => ⟨rfl, .refl [] r.2⟩

end Grammar

section
variable {rules' : List (String × Grammar)} {F F' : Frames} {name : String}

theorem rel_lookup {α β : Type} {R : α → β → Prop} {l : List (String × α)} {l' : List (String × β)}
    (h : List.Forall₂ (fun e e' => e.1 = e'.1 ∧ R e.2 e'.2) l l') (name : String) :
    Option.Rel R (l.lookup name) (l'.lookup name) := by
  induction h with
  | nil => exact .none
  | @cons e e' rest rest' he _ ih =>
    obtain ⟨n, x⟩ := e
    obtain ⟨n', y⟩ := e'
    obtain ⟨rfl, hxy⟩ : n = n' ∧ R x y := he
    rw [List.lookup_cons, List.lookup_cons]
    split
    · exact .some hxy
    · exact ih

theorem Grammar.UnrollsAll.lookup (h : UnrollsAll rules rules') (name : String) :
    Option.Rel (Unrolls rules []) (rules.reverse.lookup name) (rules'.reverse.lookup name) :=
  rel_lookup (List.forall₂_reverse_iff.mpr h) name

theorem Grammar.UnrollsAll.parallel_rule (h : UnrollsAll rules rules')
    (hF : F.resolve? rules name = (rules.reverse.lookup name).map fun body => ([], body))
    (hF' : F'.resolve? rules' name = (rules'.reverse.lookup name).map fun body => ([], body)) :
    Parallel rules rules' (Closure.Unrolls rules) (F, .call name) (F', .call name) := by
  have hlookup := h.lookup name
  generalize rules.reverse.lookup name = a at hlookup hF
  generalize rules'.reverse.lookup name = b at hlookup hF'
  cases hlookup with
  | none => exact .unbound hF hF'
  | some hbody => exact .refer hF hF' ⟨.nil, hbody⟩

/-- A registered definition that has been opened, beside what it has been unrolled to as a rule. -/
theorem Grammar.Unrolls.parallel_opened {body g' : Grammar} {K K' : Closure}
    (h : Unrolls rules [] (Grammar.recursive name body) g')
    (hK : K.2.target? rules K.1 = some ([(name, body)], body))
    (hK' : K'.2.target? rules' K'.1 = some ([], g')) :
    Parallel rules rules' (Closure.Unrolls rules) K K' := by
  generalize hF : ([] : Frames) = F at h
  generalize hg : Grammar.recursive name body = g at h
  induction h generalizing K' with
  | recursive hbody =>
    cases hF
    cases hg
    exact .right hK' (.refer hK rfl ⟨.cons hbody .nil, hbody⟩)
  | delayed _ ih => exact .right hK' (ih rfl hF hg)
  | opened hname hbody =>
    cases hg
    exact .refer hK hK' ⟨.opened hname, hbody⟩
  | _ => cases hg

theorem Frames.Unrolls.parallel_call (hrules : Grammar.UnrollsAll rules rules')
    (h : Frames.Unrolls rules F F') (name : String) :
    Parallel rules rules' (Closure.Unrolls rules) (F, .call name) (F', .call name) := by
  induction h with
  | nil => exact hrules.parallel_rule rfl rfl
  | @cons n body body' F F' hbody houter ih =>
    by_cases hn : name = n
    · subst hn
      exact .refer (resolve?_cons_self rules name body F) (resolve?_cons_self rules' name body' F')
        ⟨.cons hbody houter, hbody⟩
    · have hskip (rules : List (String × Grammar)) (body : Grammar) (outer : Frames) : ∀ other,
          (Grammar.call name).Calls other →
            resolve? rules other ((n, body) :: outer) = outer.resolve? rules other := by
        rintro _ rfl
        exact resolve?_cons_of_ne rules hn body outer
      exact .among (hskip rules body F) (hskip rules' body' F') ih
  | @opened n body hname =>
    by_cases hn : name = n
    · subst hn
      -- On the right the name leads to the rule, which may have been unrolled as well.
      have hlookup := hrules.lookup name
      rw [hname] at hlookup
      cases hlookup' : rules'.reverse.lookup name with
      | none =>
        rw [hlookup'] at hlookup
        cases hlookup
      | some g' =>
        rw [hlookup'] at hlookup
        obtain ⟨hg'⟩ := hlookup
        have hright : resolve? rules' name [] = some ([], g') := by
          rw [resolve?, hlookup', Option.map_some]
        exact hg'.parallel_opened (resolve?_cons_self rules name body []) hright
    · exact hrules.parallel_rule (resolve?_cons_of_ne rules hn body []) rfl

theorem Grammar.Unrolls.parallel (hrules : UnrollsAll rules rules') {g g' : Grammar}
    (h : Unrolls rules F g g') (hF : Frames.Unrolls rules F F') :
    Parallel rules rules' (Closure.Unrolls rules) (F, g) (F', g') := by
  induction h generalizing F' with
  | terminal => exact .terminal
  | modify _ ih => exact .modify (ih hF)
  | join _ _ ih ih' => exact .join (ih hF) (ih' hF)
  | between _ _ _ ih ih' ih'' => exact .between (ih hF) (ih' hF) (ih'' hF)
  | bind _ _ ih ihf => exact .bind (ih hF) fun x => ihf x hF
  | call => exact hF.parallel_call hrules _
  | delay hbody => exact .refer rfl rfl ⟨hF, hbody⟩
  | recursive hbody => exact .refer rfl rfl ⟨.cons hbody hF, hbody⟩
  | delayed _ ih => exact .right rfl (ih hF)
  | @copied F skipped inner name body g' heq hres _ hfree ih =>
    obtain ⟨skipped', inner', rfl, hinner, hnames⟩ := hF.split heq
    -- The copy calls nothing between the definition and the call, so that may be left out around it.
    have hskip : ∀ other, g'.Calls other →
        (skipped' ++ inner').resolve? rules' other = inner'.resolve? rules' other := by
      intro other hother
      apply Frames.resolve?_append
      rintro f' hf' rfl
      obtain ⟨f, hf, hname⟩ := hnames f' hf'
      exact hfree f hf (hname ▸ hother)
    exact .left hres (.among (fun _ _ => rfl) hskip (ih hinner))
  | @opened name body g' hname _ ih =>
    cases hF
    exact .left rfl (ih (.opened hname))

end

namespace Grammar

/-- With the store of the rules, a parse that may go deep enough has the outcome `o`. -/
def Returns (rules : List (String × Grammar)) (log : Array Record) (g : Grammar) (c : Cursor w)
    (o : Outcome w Tree) : Prop :=
  ∃ depth trail, g.parser depth c ⟨log, Store.ofRules rules⟩ = .ok (o, trail)

theorem returns_iff_derives {log : Array Record} {g : Grammar} {c : Cursor w} {o : Outcome w Tree} :
    Returns rules log g c o ↔ Derives rules [] g c o :=
  ⟨fun ⟨_, _, h⟩ => derives_of_run h, fun h => (h.parser_eventually log).exists⟩

theorem Unrolls.returns_iff {rules' : List (String × Grammar)} (hrules : UnrollsAll rules rules')
    {g g' : Grammar} (h : Unrolls rules [] g g') (log : Array Record) (c : Cursor w)
    (o : Outcome w Tree) : Returns rules log g c o ↔ Returns rules' log g' c o := by
  rw [returns_iff_derives, returns_iff_derives]
  exact (h.parallel hrules .nil).derives_iff (fun hL => hL.2.parallel hrules hL.1) c o

/-- A registered recursive definition returns what its body does, which calls the definition by its
name. Nothing else is returned when calls, of it or of any other definition, are replaced by copies
of bodies and parts are delayed, be it in a grammar or in the rules. -/
theorem recursive_fixpoint (rules : List (String × Grammar)) (log : Array Record) (c : Cursor w)
    (o : Outcome w Tree) :
    (∀ name body, rules.reverse.lookup name = some (recursive name body) →
      (Returns rules log (recursive name body) c o ↔ Returns rules log body c o) ∧
        (Returns rules log (call name) c o ↔ Returns rules log body c o)) ∧
    ∀ rules' g g', UnrollsAll rules rules' → Unrolls rules [] g g' →
      (Returns rules log g c o ↔ Returns rules' log g' c o) := by
  refine ⟨fun name body hname => ?_, fun rules' g g' hrules h => h.returns_iff hrules log c o⟩
  have hopened : Unrolls rules [] (recursive name body) body := .opened hname (.refl _ _)
  have hres : Frames.resolve? rules name [] = some ([], recursive name body) := by
    rw [Frames.resolve?, hname, Option.map_some]
  have hcopied : Unrolls rules [] (call name) body :=
    .copied (List.nil_append []).symm hres hopened (List.forall_mem_nil _)
  exact ⟨hopened.returns_iff (.refl rules) log c o, hcopied.returns_iff (.refl rules) log c o⟩

def brackets : Grammar :=
  .between (.is 91) (.recursive "rest" (.optional (.andThen (.call "list") (.call "rest")))) (.is 93)

/-- The same with a copy of all in place of the inner list. -/
def bracketsTwice : Grammar :=
  .between (.is 91) (.recursive "rest" (.optional (.andThen brackets (.delay (.call "rest")))))
    (.is 93)

theorem unrolls_brackets (rules : List (String × Grammar)) :
    Unrolls rules [] (recursive "list" brackets) (recursive "list" bracketsTwice) := by
  have hfree : ¬brackets.Calls "rest" := by
    simp [brackets, Calls, is, optional, andThen, seq]
  have hcopy : Unrolls rules [("rest", .optional (.andThen (.call "list") (.call "rest"))),
      ("list", brackets)] (call "list") brackets :=
    .copied List.singleton_append.symm rfl (.refl _ _) (by simpa using hfree)
  exact .recursive (.between .terminal (.recursive (.modify (.join hcopy (.delayed .call)))) .terminal)

theorem recursive_fixpoint_brackets :
    let w : Input := ⟨.byte, #[91, 91, 93, 91, 93, 93], by decide⟩
    let rules := [("list", recursive "list" brackets)]
    let rules' := [("list", recursive "list" bracketsTwice)]
    let o : Outcome w Tree :=
      .success (.present (.pair .absent (.present (.pair .absent .absent)))) ⟨6, by decide⟩
    rules.reverse.lookup "list" = some (recursive "list" brackets) ∧ UnrollsAll rules rules' ∧
      Unrolls rules [] (recursive "list" brackets) (recursive "list" bracketsTwice) ∧
      Returns rules #[] (recursive "list" brackets) (Cursor.start w) o ∧
      Returns rules #[] brackets (Cursor.start w) o ∧
      Returns rules #[] (call "list") (Cursor.start w) o ∧
      Returns rules' #[] (recursive "list" bracketsTwice) (Cursor.start w) o := by
  intro w rules rules' o
  have hname : rules.reverse.lookup "list" = some (recursive "list" brackets) := rfl
  have hunrolls := unrolls_brackets rules
  have hrules : UnrollsAll rules rules' := .cons ⟨rfl, hunrolls⟩ .nil
  have hrun : ((recursive "list" brackets).parser 20 (Cursor.start w)
      ⟨#[], Store.ofRules rules⟩).map (·.1) = .ok o := by
    cbv
  have hreturns : Returns rules #[] (recursive "list" brackets) (Cursor.start w) o :=
    ⟨20, Run.exists_trail_iff.mpr hrun⟩
  obtain ⟨hlaw, hunrolled⟩ := recursive_fixpoint rules #[] (Cursor.start w) o
  obtain ⟨hbody, hcall⟩ := hlaw "list" brackets hname
  have hreturns' := hbody.mp hreturns
  exact ⟨hname, hrules, hunrolls, hreturns, hreturns', hcall.mpr hreturns',
    (hunrolled rules' _ _ hrules hunrolls).mp hreturns⟩

end Grammar

end Descent
