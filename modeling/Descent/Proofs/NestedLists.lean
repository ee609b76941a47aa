import Mathlib
import Descent.Grammar.Action
import Descent.Proofs.Adequacy
import Descent.Proofs.LoopRecursion
import Descent.Proofs.Spelling

namespace Descent
variable {w : Input}

inductive Rose
  | node (children : List Rose)

namespace Rose

/-- The texts of the children with commas between them, in brackets. -/
def render : Rose → List Int
  | node children => [91] ++ [44].intercalate (children.map render) ++ [93]

def nodes : Rose → Nat
  | node children => 1 + (children.map nodes).sum

@[elab_as_elim, induction_eliminator]
theorem induct {P : Rose → Prop} (node : ∀ rs, (∀ r ∈ rs, P r) → P (node rs)) : ∀ r, P r
  | .node rs => node rs fun r _ => induct node r

/-- Texts with a comma before each of them. -/
def renderRest (rs : List Rose) : List Int := rs.flatMap fun r => 44 :: r.render

theorem intercalate_cons (r : Rose) (rs : List Rose) :
    [44].intercalate ((r :: rs).map render) = r.render ++ renderRest rs := by
  induction rs generalizing r with
  | nil => simp [renderRest]
  | cons s rs ih =>
    rw [List.map_cons, List.map_cons, List.intercalate_cons_cons, ← List.map_cons, ih]
    simp [renderRest]

theorem render_node_nil : (node []).render = [91, 93] := by
  simp [render, List.intercalate]

theorem render_node_cons (r : Rose) (rs : List Rose) :
    (node (r :: rs)).render = 91 :: (r.render ++ renderRest rs ++ [93]) := by
  rw [render, intercalate_cons, List.append_assoc, List.singleton_append]

def tree (r : Rose) : Tree := .number r.nodes

theorem sum_map_tree (rs : List Rose) :
    (Tree.list (rs.map tree)).sum = ((rs.map nodes).sum : Nat) := by
  induction rs with
  | nil => rfl
  | cons r rs ih =>
    rw [List.map_cons, Tree.sum_list_cons, ih, List.map_cons, List.sum_cons, tree]
    simp [Tree.sum, Tree.addTo]

end Rose

namespace Grammar

def listItems : Grammar := ((call "list").separatedList (is 44)).optional

/-- A list in brackets, counted with all lists in it. -/
def listBody : Grammar := (between (is 91) listItems (is 93)).map (addSum 1)

def nestedLists : Grammar := recursive "list" listBody

end Grammar

open Grammar (listBody listItems nestedLists)

/-- Inside the definition of lists, a list has the outcome `o` at `c`. -/
abbrev DerivesList (rules : List (String × Grammar)) (c : Cursor w) (o : Outcome w Tree) : Prop :=
  Derives rules [("list", listBody)] listBody c o

variable {rules : List (String × Grammar)} {c d : Cursor w}

theorem derives_is {frames : Frames} {e : Int} (h : c.element? = some e) :
    Derives rules frames (.is e) c (.success (.element e) c.next) :=
  .terminal (.accept .is h rfl)

theorem derives_is_of_ne {frames : Frames} {e : Int} (h : c.element? ≠ some e) :
    ∃ err, Derives rules frames (.is e) c (.failure err) := by
  cases hx : c.element? with
  | none => exact ⟨_, .terminal (.ended .is hx)⟩
  | some x =>
    have hne : x ≠ e := by
      rintro rfl
      exact h hx
    exact ⟨_, .terminal (.refuse .is hx hne)⟩

theorem derives_call {o : Outcome w Tree} (h : DerivesList rules c o) :
    Derives rules [("list", listBody)] (.call "list") c o :=
  .unfold (Frames.resolve?_cons_self rules "list" listBody []) h

namespace DerivesList

theorem closed {y : Tree} {e : Cursor w} (hc : c.element? = some 91)
    (hitems : Derives rules [("list", listBody)] listItems c.next (.success y e))
    (he : e.element? = some 93) : DerivesList rules c (.success (Grammar.addSum 1 y) e.next) :=
  .modify (.between (derives_is hc) hitems (derives_is he)) .map

theorem open_of_ne {y : Tree} {e : Cursor w} (hc : c.element? = some 91)
    (hitems : Derives rules [("list", listBody)] listItems c.next (.success y e))
    (he : e.element? ≠ some 93) : ∃ err, DerivesList rules c (.failure err) := by
  obtain ⟨err, herr⟩ := derives_is_of_ne he
  exact ⟨err, .modify (.between (derives_is hc) hitems herr) (.fails trivial)⟩

theorem refused (hc : c.element? ≠ some 91) : ∃ err, DerivesList rules c (.failure err) := by
  obtain ⟨err, herr⟩ := derives_is_of_ne hc
  exact ⟨err, .modify (.openingFails herr) (.fails trivial)⟩

theorem items_of_failure {err : ParseError} (h : DerivesList rules c (.failure err)) :
    Derives rules [("list", listBody)] listItems c (.success .absent c) :=
  .modify (.listFails (derives_call h)) .absent

/-- How the list goes on after an item that ended at `c`: at each comma with a list after it. -/
abbrev More (rules : List (String × Grammar)) (c : Cursor w) (rs : List Rose) (e : Cursor w) :
    Prop :=
  Continues (Derives rules [("list", listBody)] (.call "list"))
    (Derives rules [("list", listBody)] (.is 44)) c (rs.map Rose.tree) e

theorem items {r : Rose} {rs : List Rose} {e : Cursor w}
    (hr : DerivesList rules c (.success r.tree d)) (hrs : More rules d rs e) :
    Derives rules [("list", listBody)] listItems c
      (.success (.present (.list ((r :: rs).map Rose.tree))) e) :=
  .modify (.list (derives_call hr) (fun _ _ h => h) (fun _ _ h => h) hrs) .present

theorem addSum_absent : Grammar.addSum 1 .absent = (Rose.node []).tree := by
  simp [Grammar.addSum, Rose.tree, Rose.nodes, Tree.sum, Tree.addTo]

theorem addSum_present (rs : List Rose) :
    Grammar.addSum 1 (.present (.list (rs.map Rose.tree))) = (Rose.node rs).tree := by
  have hsum : (Tree.present (.list (rs.map Rose.tree))).sum = ((rs.map Rose.nodes).sum : Nat) :=
    Rose.sum_map_tree rs
  rw [Grammar.addSum, hsum, Rose.tree, Rose.nodes, Nat.cast_add, Nat.cast_one, add_comm]

theorem more_of_remaining {rs : List Rose}
    (hrs : ∀ r ∈ rs, ∀ c d : Cursor w, c.remaining = r.render ++ d.remaining →
      DerivesList rules c (.success r.tree d))
    (hc : c.remaining = Rose.renderRest rs ++ d.remaining) (hd : d.element? ≠ some 44) :
    More rules c rs d := by
  induction rs generalizing c with
  | nil =>
    obtain rfl := Cursor.remaining_inj.mp hc
    obtain ⟨err, herr⟩ := derives_is_of_ne hd
    exact .noSeparator herr
  | cons r rs ih =>
    have hsplit : c.remaining = 44 :: (r.render ++ (Rose.renderRest rs ++ d.remaining)) := by
      simpa [Rose.renderRest] using hc
    obtain ⟨hcomma, hnext⟩ := Cursor.element?_of_remaining hsplit
    have hrest := Cursor.remaining_advance hnext
    have hitem := hrs r List.mem_cons_self c.next (c.next.advance r.render.length)
      (by rw [hrest, hnext])
    have hadvance := Cursor.next_position_of_element? hcomma
    have hle : c.next.position ≤ (c.next.advance r.render.length).position := hitem.position_le
    exact .more (derives_is hcomma) (derives_call hitem) (by omega)
      (ih (fun s hs => hrs s (List.mem_cons_of_mem _ hs)) hrest)

theorem of_remaining (r : Rose) (c d : Cursor w) (hc : c.remaining = r.render ++ d.remaining) :
    DerivesList rules c (.success r.tree d) := by
  induction r generalizing c d with
  | node rs ih =>
  cases rs with
  | nil =>
    rw [Rose.render_node_nil] at hc
    obtain ⟨hopening, hnext⟩ := Cursor.element?_of_remaining hc
    obtain ⟨hclosing, hend⟩ := Cursor.element?_of_remaining hnext
    obtain rfl := Cursor.remaining_inj.mp hend
    have hne : c.next.element? ≠ some 91 := by simp [hclosing]
    obtain ⟨err, herr⟩ : ∃ err, DerivesList rules c.next (.failure err) := refused hne
    rw [← addSum_absent]
    exact closed hopening (items_of_failure herr) hclosing
  | cons r rs =>
    have hsplit : c.remaining =
        91 :: (r.render ++ (Rose.renderRest rs ++ 93 :: d.remaining)) := by
      simpa [Rose.render_node_cons] using hc
    obtain ⟨hopening, hnext⟩ := Cursor.element?_of_remaining hsplit
    have hrest := Cursor.remaining_advance hnext
    have hlast := Cursor.remaining_advance hrest
    obtain ⟨hclosing, hend⟩ := Cursor.element?_of_remaining hlast
    have hfirst := ih r List.mem_cons_self c.next _ (by rw [hrest, hnext])
    have hmore : More rules (c.next.advance r.render.length) rs _ :=
      more_of_remaining (fun s hs => ih s (List.mem_cons_of_mem _ hs)) (hlast ▸ hrest)
        (by simp [hclosing])
    rw [← addSum_present, ← Cursor.remaining_inj.mp hend]
    exact closed hopening (items hfirst hmore) hclosing

/-- At `c` there is a list, which is the text of a tree, or none. -/
def Decided (rules : List (String × Grammar)) (c : Cursor w) : Prop :=
  (∃ (r : Rose) (d : Cursor w), c.remaining = r.render ++ d.remaining ∧
    DerivesList rules c (.success r.tree d)) ∨ ∃ err, DerivesList rules c (.failure err)

theorem exists_more (rules : List (String × Grammar)) (c : Cursor w)
    (hlater : ∀ d : Cursor w, c.position < d.position → Decided rules d) :
    ∃ rs e, c.remaining = Rose.renderRest rs ++ e.remaining ∧ More rules c rs e := by
  induction c using Cursor.backward_induction with
  | step c ih =>
  by_cases hcomma : c.element? = some 44
  · have hadvance := Cursor.next_position_of_element? hcomma
    rcases hlater c.next (by omega) with ⟨r, d, hr, hlist⟩ | ⟨err, herr⟩
    · have hle : c.next.position ≤ d.position := hlist.position_le
      obtain ⟨rs, e, hrs, hmore⟩ := ih d (by omega) fun d' hd' => hlater d' (by omega)
      refine ⟨r :: rs, e, ?_, .more (derives_is hcomma) (derives_call hlist) (by omega) hmore⟩
      rw [Cursor.remaining_of_element? hcomma, hr, hrs]
      simp [Rose.renderRest]
    · exact ⟨[], c, rfl, .noItem (derives_is hcomma) (derives_call herr)⟩
  · obtain ⟨err, herr⟩ := derives_is_of_ne hcomma
    exact ⟨[], c, rfl, .noSeparator herr⟩

theorem decided_of_items {rs : List Rose} {y : Tree} {e : Cursor w} (hopening : c.element? = some 91)
    (hitems : Derives rules [("list", listBody)] listItems c.next (.success y e))
    (hy : Grammar.addSum 1 y = (Rose.node rs).tree)
    (hrs : c.next.remaining = [44].intercalate (rs.map Rose.render) ++ e.remaining) :
    Decided rules c := by
  by_cases hclosing : e.element? = some 93
  · refine .inl ⟨.node rs, e.next, ?_, hy ▸ closed hopening hitems hclosing⟩
    rw [Cursor.remaining_of_element? hopening, hrs, Cursor.remaining_of_element? hclosing]
    simp [Rose.render]
  · exact .inr (open_of_ne hopening hitems hclosing)

theorem decided (rules : List (String × Grammar)) (c : Cursor w) : Decided rules c := by
  induction c using Cursor.backward_induction with
  | step c ih =>
  by_cases hopening : c.element? = some 91
  · have hadvance := Cursor.next_position_of_element? hopening
    rcases ih c.next (by omega) with ⟨r, d, hr, hlist⟩ | ⟨err, herr⟩
    · have hle : c.next.position ≤ d.position := hlist.position_le
      obtain ⟨rs, e, hrs, hmore⟩ := exists_more rules d fun d' hd' => ih d' (by omega)
      refine decided_of_items hopening (items hlist hmore) (addSum_present _) ?_
      rw [Rose.intercalate_cons, hr, hrs, List.append_assoc]
    · exact decided_of_items hopening (items_of_failure herr) addSum_absent rfl
  · exact .inr (refused hopening)

/-- A list is read from `c` to `d` exactly if the text between them is that of a tree. -/
theorem success_iff {t : Tree} : DerivesList rules c (.success t d) ↔
    ∃ r : Rose, c.remaining = r.render ++ d.remaining ∧ t = r.tree := by
  constructor
  · intro h
    rcases decided rules c with ⟨r, e, hr, hlist⟩ | ⟨err, herr⟩
    · obtain ⟨rfl, rfl⟩ := Outcome.success.inj (h.unique hlist)
      exact ⟨r, hr, rfl⟩
    · cases h.unique herr
  · rintro ⟨r, hr, rfl⟩
    exact of_remaining r c d hr

end DerivesList

theorem Extent.judge_whole_eq_complete_iff {o : Outcome w Tree} {t : Tree} :
    whole.judge o = .complete t ↔ ∃ d, o = .success t d ∧ d.remaining = [] := by
  have hend (d : Cursor w) : d.atEnd = true ↔ d.remaining = [] := by
    rw [← List.length_eq_zero_iff, d.length_remaining, Cursor.atEnd, decide_eq_true_eq]
    exact Nat.sub_eq_zero_iff_le.symm
  cases o with
  | failure e => simp [judge]
  | success x d =>
    rw [judge]
    by_cases hd : d.atEnd = true
    · rw [if_pos hd]
      simp [← hend, hd]
    · rw [if_neg hd]
      simp [← hend, hd]

/-- Every parse that may go deep enough answers. It accepts an input exactly if that is the text of a
tree, and answers with the number of nodes. -/
theorem nested_lists_counted (rules : List (String × Grammar)) (w : Input) :
    (∃ depth, ∀ deeper ≥ depth, ∃ transcript,
      nestedLists.parse deeper rules w .whole = .ok transcript) ∧
    ∀ depth transcript, nestedLists.parse depth rules w .whole = .ok transcript → ∀ t,
      (transcript.answer = .complete t ↔
        ∃ r : Rose, w.codes.toList = r.render ∧ t = .number r.nodes) := by
  have hstart : (Cursor.start w).remaining = w.codes.toList := by
    rw [Cursor.remaining_eq_drop, Cursor.start, List.drop_zero]
  have hopen (o : Outcome w Tree) : Derives rules [] nestedLists (Cursor.start w) o ↔
      DerivesList rules (Cursor.start w) o :=
    Grammar.derives_iff_of_target? (K := ([("list", listBody)], listBody)) rfl
  have houtcome : ∃ o, DerivesList rules (Cursor.start w) o := by
    rcases DerivesList.decided rules (Cursor.start w) with ⟨r, d, -, h⟩ | ⟨err, h⟩
    · exact ⟨_, h⟩
    · exact ⟨_, h⟩
  constructor
  · obtain ⟨o, ho⟩ := houtcome
    have hwhole : Derives rules [] nestedLists (Extent.whole.cursor w) o := (hopen o).mpr ho
    obtain ⟨depth, hdepth⟩ := Grammar.parse_of_derives hwhole
    refine ⟨depth, fun deeper hle => ?_⟩
    obtain ⟨transcript, hparse, -⟩ := hdepth deeper hle
    exact ⟨transcript, hparse⟩
  · intro depth transcript hparse t
    obtain ⟨o, ho, hanswer⟩ := Grammar.derives_of_parse hparse
    have hlist := (hopen o).mp ho
    rw [hanswer, Extent.judge_whole_eq_complete_iff]
    constructor
    · rintro ⟨d, rfl, hd⟩
      obtain ⟨r, hr, ht⟩ := DerivesList.success_iff.mp hlist
      rw [hstart, hd, List.append_nil] at hr
      exact ⟨r, hr, ht⟩
    · rintro ⟨r, hr, rfl⟩
      have hsplit : (Cursor.start w).remaining = r.render ++ [] := by
        rw [hstart, hr, List.append_nil]
      have hend := Cursor.remaining_advance hsplit
      have hread : DerivesList rules (Cursor.start w) (.success r.tree _) :=
        .of_remaining r _ _ (hend ▸ hsplit)
      exact ⟨_, hlist.unique hread, hend⟩

theorem nested_lists_counted_four :
    let w : Input := ⟨.byte, #[91, 91, 93, 44, 91, 91, 93, 93, 93], by decide⟩
    ∃ depth transcript, nestedLists.parse depth [] w .whole = .ok transcript ∧
      transcript.answer = .complete (.number 4) := by
  intro w
  obtain ⟨⟨depth, hdepth⟩, hanswers⟩ := nested_lists_counted [] w
  obtain ⟨transcript, hparse⟩ := hdepth depth (Nat.le_refl _)
  refine ⟨depth, transcript, hparse, (hanswers depth transcript hparse _).mpr ?_⟩
  refine ⟨.node [.node [], .node [.node []]], ?_, ?_⟩
  · simp [Rose.render, List.intercalate, w]
  · simp [Rose.nodes]

end Descent
