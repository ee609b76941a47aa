import Mathlib
import Descent.Proofs.Adequacy

namespace Descent
variable {w : Input}

namespace Input

@[simp] theorem slice_self (w : Input) (p : Nat) : w.slice p p = [] := by
  rw [slice_eq, Nat.sub_self, List.take_zero]

theorem slice_append {p q r : Nat} (hpq : p ≤ q) (hqr : q ≤ r) :
    w.slice p q ++ w.slice q r = w.slice p r := by
  have hdrop : w.codes.toList.drop q = (w.codes.toList.drop p).drop (q - p) := by
    rw [List.drop_drop, Nat.add_sub_cancel' hpq]
  have hlen : r - p = (q - p) + (r - q) := by omega
  rw [slice_eq, slice_eq, slice_eq, hdrop, hlen, List.take_add]

theorem slice_succ {p : Nat} {x : Int} (h : w.codes[p]? = some x) : w.slice p (p + 1) = [x] := by
  obtain ⟨hlt, hx⟩ := Array.getElem?_eq_some_iff.mp h
  have hlt' : p < w.codes.toList.length := by simpa using hlt
  rw [slice_eq, Nat.add_sub_cancel_left, List.drop_eq_getElem_cons hlt']
  simp [hx]

end Input

theorem Cursor.slice_next {c : Cursor w} {x : Int} (h : c.element? = some x) :
    w.slice c.position c.next.position = [x] := by
  rw [next_position_of_element? h]
  exact Input.slice_succ h

theorem Cursor.sliceFrom_eq {c d : Cursor w} (h : c.position ≤ d.position) :
    d.sliceFrom c.position = w.slice c.position d.position := by
  rw [sliceFrom, Nat.min_eq_left h]

/-- A constant has no elements of its own. -/
def Terminal.Keeps : Terminal → Prop
  | succeed value => value.elements = []
  | _ => True

def Modifier.Keeps : Modifier → Prop
  | map _ => False
  | tryMap _ => False
  | ignore => False
  | _ => True

def Connective.Keeps : Connective → Prop
  | sequence keep => keep = .both
  | choice choose => choose = .same ∨ choose = .either
  | separatedList => False

/-- No tree of a part is dropped or replaced by a function. -/
def Grammar.Keeps : Grammar → Prop
  | terminal t => t.Keeps
  | modify m g => m.Keeps ∧ g.Keeps
  | join k g h => k.Keeps ∧ g.Keeps ∧ h.Keeps
  | between _ _ _ => False
  | bind _ _ => False
  | call _ => True
  | delay body => body.Keeps
  | recursive _ body => body.Keeps

/-- The elements of what was read from `c` on are those up to the end of it. -/
def Outcome.Reproduces {α : Type} (elements : α → List Int) (c : Cursor w) : Outcome w α → Prop
  | success x d => elements x = w.slice c.position d.position
  | failure _ => True

namespace Outcome.Reproduces
variable {α β : Type} {c d : Cursor w}

theorem map {elements : α → List Int} {elements' : β → List Int} {f : α → β}
    (hf : ∀ x, elements' (f x) = elements x) {o : Outcome w α} (h : o.Reproduces elements c) :
    (o.map f).Reproduces elements' c := by
  cases o with
  | success x d => exact (hf x).trans h
  | failure e => trivial

theorem prepend {elements : α → List Int} {elements' : β → List Int} {f : α → β} {codes : List Int}
    (hf : ∀ x, elements' (f x) = codes ++ elements x) (hcodes : codes = w.slice c.position d.position)
    (hcd : c.position ≤ d.position) {o : Outcome w α} (ho : o.SoundAt d)
    (h : o.Reproduces elements d) : (o.map f).Reproduces elements' c := by
  cases o with
  | success x e =>
    have hx : elements x = w.slice d.position e.position := h
    show elements' (f x) = w.slice c.position e.position
    rw [hf, hx, hcodes]
    exact Input.slice_append hcd ho
  | failure e => trivial

end Outcome.Reproduces

theorem Spells.reproduces {whole rest : List Int} {c : Cursor w} {o : Outcome w (List Int)}
    (h : Spells whole rest c o) : o.Reproduces id c := by
  induction h with
  | done => exact (Input.slice_self _ _).symm
  | @go e rest c o hx hs ih =>
    have hnext := Cursor.slice_next hx
    have hcons (xs : List Int) : id (e :: xs) = [e] ++ id xs := rfl
    exact ih.prepend hcons hnext.symm (Cursor.position_le_next _) hs.soundAt
  | differs => trivial
  | ended => trivial

theorem Terminal.Matches.reproduces {t : Terminal} (ht : t.Keeps) {c : Cursor w}
    {o : Outcome w Tree} (h : t.Matches c o) : o.Reproduces Tree.elements c := by
  cases h with
  | accept hr hx ha =>
    have hnext := Cursor.slice_next hx
    exact (Tree.elements_element _).trans hnext.symm
  | atEnd => exact (Input.slice_self _ _).symm
  | succeed => exact Eq.trans ht (Input.slice_self _ _).symm
  | literal hs => exact hs.reproduces.map Tree.elements_slice
  | _ => trivial

theorem Modifier.Turns.reproduces {m : Modifier} (hm : m.Keeps) {c : Cursor w}
    {o o' : Outcome w Tree} (h : Turns c m o o') (ho : o.SoundAt c)
    (hr : o.Reproduces Tree.elements c) : o'.Reproduces Tree.elements c := by
  cases h with
  | map => exact hm.elim
  | accept => exact hm.elim
  | ignore => exact hm.elim
  | recognize => exact (Tree.elements_slice _).trans (Cursor.sliceFrom_eq ho)
  | absent => exact (Input.slice_self _ _).symm
  | absence => exact (Input.slice_self _ _).symm
  | keep => exact hr
  | spanned => exact hr
  | present => exact hr
  | shared => exact hr
  | _ => trivial

theorem Repeats.reproduces {R : Cursor w → Outcome w Tree → Prop}
    (hsound : ∀ c o, R c o → o.SoundAt c)
    (hR : ∀ c o, R c o → o.Reproduces Tree.elements c) {min : Nat} {max : Option Nat} {n : Nat}
    {c : Cursor w} {o : Outcome w (List Tree)} (h : Repeats R min max n c o) :
    o.Reproduces (List.flatMap Tree.elements) c := by
  induction h with
  | full => exact (Input.slice_self _ _).symm
  | enough => exact (Input.slice_self _ _).symm
  | @more n c x d o hroom hx hgo hrest ih =>
    have hle : c.position ≤ d.position := hsound _ _ hx
    exact ih.prepend (fun _ => List.flatMap_cons) (hR _ _ hx) hle (hrest.soundAt hsound)
  | @stalled n c x d hnone hx hmin hno =>
    have hread : x.elements = w.slice c.position d.position := hR _ _ hx
    show [x].flatMap Tree.elements = w.slice c.position d.position
    rw [List.flatMap_singleton, hread]
  | _ => trivial

variable {rules : List (String × Grammar)} {frames : Frames} {g : Grammar} {c : Cursor w}

/-- What is derived from a grammar that keeps all elements reproduces what was consumed. -/
theorem Derives.reproduces (hrules : ∀ r ∈ rules, r.2.Keeps) {o : Outcome w Tree}
    (h : Derives rules frames g c o) (hframes : ∀ f ∈ frames, f.2.Keeps) (hg : g.Keeps) :
    o.Reproduces Tree.elements c := by
  induction h with
  | terminal ht => exact ht.reproduces hg
  | modify hpart ht ih => exact ht.reproduces hg.1 hpart.soundAt (ih hframes hg.2)
  | repeated hpart hr ih =>
    have hread := hr.reproduces (fun d o ho => (hpart d o ho).soundAt)
      fun d o ho => ih d o ho hframes hg.2
    exact hread.map Tree.elements_list
  | sequence hfirst hsecond ih ih' =>
    obtain ⟨hkeep, hleft, hright⟩ := hg
    obtain rfl : _ = Keep.both := hkeep
    exact (ih' hframes hright).prepend (Tree.elements_pair _) (ih hframes hleft)
      hfirst.position_le hsecond.soundAt
  | choiceLeft _ ih =>
    obtain ⟨hchoose, hleft, _⟩ := hg
    have hread := ih hframes hleft
    rcases hchoose with rfl | rfl
    · exact hread
    · exact hread
  | choiceRight _ _ _ ih =>
    obtain ⟨hchoose, _, hright⟩ := hg
    have hread := ih hframes hright
    rcases hchoose with rfl | rfl
    · exact hread
    · exact hread
  -- Separators, brackets and what `bind` has read first are lost, so nothing of the kind keeps all.
  | list => exact hg.1.elim
  | between => exact hg.elim
  | bind => exact hg.elim
  | unfold ht _ ih =>
    obtain ⟨hinner, hbody⟩ :=
      Grammar.forall_of_target? (fun _ h => h) (fun _ _ h => h) hrules hframes hg ht
    exact ih hinner hbody
  | _ => trivial

/-- When a grammar in which nothing drops or replaces trees succeeds, the elements of its tree from
left to right are those of the input between where it started and where it stopped. -/
theorem Grammar.elements_eq_slice (hg : ∀ g' ∈ g :: rules.map (·.2), g'.Keeps) {depth : Nat}
    {log : Array Record} {x : Tree} {d : Cursor w} {trail : Trail Store}
    (h : g.parser depth c ⟨log, Store.ofRules rules⟩ = .ok (.success x d, trail)) :
    x.elements = w.slice c.position d.position := by
  obtain ⟨hself, hrules⟩ := List.forall_mem_cons.mp hg
  exact (derives_of_run h).reproduces (List.forall_mem_map.mp hrules) (List.forall_mem_nil _) hself

def Grammar.groups : Grammar :=
  .many <| .recursive "group" <| .choice .either
    (.andThen (.is 40) (.andThen (.many (.call "group")) (.is 41)))
    (.spanned (.some (.andThen (.notFollowedBy (.oneOf [40, 41])) .any)))

theorem Grammar.elements_eq_slice_groups :
    let w : Input := ⟨.byte, #[40, 97, 98, 40, 41, 41, 40, 99], by decide⟩
    let row := Tree.list [.pair .unit (.element 97), .pair .unit (.element 98)]
    let inner := Tree.pair (.element 40) (.pair (.list []) (.element 41))
    let items := Tree.list [.right (.spanned row 1 3 [97, 98]), .left inner]
    let x := Tree.list [.left (.pair (.element 40) (.pair items (.element 41)))]
    let d : Cursor w := ⟨6, by decide⟩
    (∀ g' ∈ [groups], g'.Keeps) ∧
      ∃ trail, groups.parser 9 (Cursor.start w) ⟨#[], Store.ofRules []⟩ = .ok (.success x d, trail) ∧
        x.elements = w.slice 0 6 := by
  intro w row inner items x d
  have hkeeps : ∀ g' ∈ [groups], g'.Keeps := by
    simp [groups, many, Grammar.some, repeated, choice, andThen, seq, is, spanned, notFollowedBy, oneOf,
      any, Keeps, Modifier.Keeps, Connective.Keeps, Terminal.Keeps]
  have hrun : (groups.parser 9 (Cursor.start w) ⟨#[], Store.ofRules []⟩).map (·.1) =
      .ok (.success x d) := by
    cbv
  obtain ⟨trail, hrun⟩ := Run.exists_trail_iff.mpr hrun
  exact ⟨hkeeps, trail, hrun, elements_eq_slice hkeeps hrun⟩

end Descent
