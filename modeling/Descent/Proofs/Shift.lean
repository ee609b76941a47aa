import Mathlib
import Descent.Grammar.Action
import Descent.Proofs.Parametricity

namespace Descent
variable {w : Input} {k : Nat}

namespace Input

/-- The input without its first `k` elements. -/
def drop (w : Input) (k : Nat) : Input where
  kind := w.kind
  codes := w.codes.extract k w.codes.size
  size_lt := by
    have h := w.size_lt
    simp only [Array.size_extract]
    omega

theorem size_drop (w : Input) (k : Nat) : (w.drop k).size = w.size - k := by
  simp only [size, drop, Array.size_extract]
  omega

theorem getElem?_drop (w : Input) (k p : Nat) : (w.drop k).codes[p]? = w.codes[p + k]? := by
  have hlist : (w.codes.extract k w.codes.size).toList = w.codes.toList.drop k := by
    rw [Array.toList_extract, List.extract_eq_take_drop]
    exact List.take_of_length_le (by simp)
  rw [drop, ← Array.getElem?_toList, hlist, List.getElem?_drop, Array.getElem?_toList,
    Nat.add_comm k p]

theorem slice_drop (w : Input) (k p q : Nat) :
    (w.drop k).slice p q = w.slice (p + k) (q + k) := by
  have hlist : (w.drop k).codes.toList = w.codes.toList.drop k := by
    rw [drop, Array.toList_extract, List.extract_eq_take_drop]
    exact List.take_of_length_le (by simp)
  have hlen : q + k - (p + k) = q - p := by omega
  rw [slice_eq, slice_eq, hlist, List.drop_drop, Nat.add_comm k p, hlen]

end Input

/-- A cursor in the rest of an input, as a cursor in the whole. -/
def Cursor.shift (hk : k ≤ w.size) (c : Cursor (w.drop k)) : Cursor w where
  position := c.position + k
  le_size := by
    have h := c.le_size
    rw [Input.size_drop] at h
    omega

namespace Tree

mutual

def shift (k : Nat) : Tree → Tree
  | unit => unit
  | element c => element c
  | slice codes => slice codes
  | list items => list (shiftAll k items)
  | pair x y => pair (shift k x) (shift k y)
  | absent => absent
  | present x => present (shift k x)
  | left x => left (shift k x)
  | right x => right (shift k x)
  | spanned x start stop codes => spanned (shift k x) (start + k) (stop + k) codes
  | unsigned64 n => unsigned64 n
  | signed64 n => signed64 n
  | float64 bits => float64 bits
  | number n => number n
  | text s => text s
  | tagged name x => tagged name (shift k x)

def shiftAll (k : Nat) : List Tree → List Tree
  | [] => []
  | x :: rest => shift k x :: shiftAll k rest

end

theorem shiftAll_eq_map (k : Nat) (xs : List Tree) : shiftAll k xs = xs.map (shift k) := by
  induction xs with
  | nil => rfl
  | cons x rest ih => rw [shiftAll, ih, List.map_cons]

mutual

theorem elements_shift (k : Nat) (t : Tree) : (t.shift k).elements = t.elements := by
  cases t with
  | list items => rw [shift, elements_list, elements_list, flatMap_elements_shiftAll]
  | pair a b => rw [shift, elements_pair, elements_pair, elements_shift, elements_shift]
  | present t => exact elements_shift k t
  | left t => exact elements_shift k t
  | right t => exact elements_shift k t
  | spanned t => exact elements_shift k t
  | tagged _ t => exact elements_shift k t
  | _ => rfl

theorem flatMap_elements_shiftAll (k : Nat) (ts : List Tree) :
    (shiftAll k ts).flatMap elements = ts.flatMap elements := by
  cases ts with
  | nil => rfl
  | cons t rest =>
    rw [shiftAll, List.flatMap_cons, List.flatMap_cons, elements_shift, flatMap_elements_shiftAll]

end

end Tree

def ParseError.shift (k : Nat) : ParseError → ParseError
  | unexpectedEnd p => unexpectedEnd (p + k)
  | literalMismatch reason p => literalMismatch reason (p + k)
  | rangeMismatch reason p => rangeMismatch reason (p + k)
  | alternativesExhausted p left right =>
    alternativesExhausted (p + k) (left.shift k) (right.shift k)
  | repetitionBelowMinimum p min matched cause =>
    repetitionBelowMinimum (p + k) min matched (cause.shift k)
  | partialMatch p stop => partialMatch (p + k) (stop + k)
  | custom reason p => custom reason (p + k)

/-- An outcome in the rest of an input, as an outcome in the whole; `f` moves the value. -/
def Outcome.shift {α β : Type} (hk : k ≤ w.size) (f : α → β) : Outcome (w.drop k) α → Outcome w β
  | success x c => success (f x) (c.shift hk)
  | failure e => failure (e.shift k)

/-- Functions of the grammar do not read the positions in spans: from moved spans they make the same,
with its spans moved. -/
def Grammar.PositionBlind (g : Grammar) : Prop :=
  ∀ k, g.Alike (fun x y => x = y.shift k) g

namespace Cursor

theorem element?_shift (hk : k ≤ w.size) (c : Cursor (w.drop k)) :
    (c.shift hk).element? = c.element? :=
  (w.getElem?_drop k c.position).symm

theorem next_shift (hk : k ≤ w.size) (c : Cursor (w.drop k)) :
    (c.shift hk).next = c.next.shift hk := by
  ext
  have hsize := w.size_drop k
  simp only [next, advance_position, shift]
  omega

end Cursor

theorem Spells.shift (hk : k ≤ w.size) {whole rest : List Int} {c : Cursor (w.drop k)}
    {o : Outcome (w.drop k) (List Int)} (h : Spells whole rest c o) :
    Spells whole rest (c.shift hk) (o.shift hk id) := by
  induction h with
  | done => exact .done
  | @go e rest c o hx _ ih =>
    have hx' := (c.element?_shift hk).trans hx
    rw [← c.next_shift hk] at ih
    have hgo := Spells.go hx' ih
    cases o with
    | success xs d => exact hgo
    | failure e => exact hgo
  | @differs e rest c x hx hne => exact .differs ((c.element?_shift hk).trans hx) hne
  | @ended e rest c hx => exact .ended ((c.element?_shift hk).trans hx)

namespace Terminal

theorem Reads.shift {t : Terminal} {accepts : Int → Prop} {refusal : Int → Nat → ParseError}
    (h : Reads (w.drop k) t accepts refusal) : Reads w t accepts refusal := by
  cases h with
  | any => exact .any
  | is => exact .is
  | range => exact .range
  | oneOf => exact .oneOf
  | noneOf => exact .noneOf
  | satisfy => exact .satisfy

theorem Reads.shift_refusal {t : Terminal} {accepts : Int → Prop} {refusal : Int → Nat → ParseError}
    (h : Reads w t accepts refusal) (x : Int) (p k : Nat) :
    (refusal x p).shift k = refusal x (p + k) := by
  cases h with
  | _ => rfl

theorem Matches.shift (hk : k ≤ w.size) {t t' : Terminal} (ht : t.Alike (fun x y => x = y.shift k) t')
    {c : Cursor (w.drop k)} {o : Outcome (w.drop k) Tree} (h : t'.Matches c o) :
    t.Matches (c.shift hk) (o.shift hk (Tree.shift k)) := by
  cases ht with
  | succeed hx =>
    cases h with
    | accept hr => cases hr
    | refuse hr => cases hr
    | ended hr => cases hr
    | succeed =>
      rw [hx]
      exact .succeed
  | same hsame =>
    cases h with
    | accept hr hx ha =>
      have hmatch := Matches.accept hr.shift ((c.element?_shift hk).trans hx) ha
      rw [c.next_shift hk] at hmatch
      exact hmatch
    | refuse hr hx ha =>
      have hmatch := Matches.refuse hr.shift ((c.element?_shift hk).trans hx) ha
      rw [Outcome.shift, hr.shift_refusal]
      exact hmatch
    | ended hr hx => exact .ended hr.shift ((c.element?_shift hk).trans hx)
    | atEnd hx => exact .atEnd ((c.element?_shift hk).trans hx)
    | beforeEnd hx => exact .beforeEnd ((c.element?_shift hk).trans hx)
    | fail => exact .fail
    | succeed => exact absurd rfl (hsame _)
    | @literal codes c o hs =>
      have hmatch := Matches.literal (hs.shift hk)
      cases o with
      | success xs d => exact hmatch
      | failure e => exact hmatch

end Terminal

namespace Correspondence

/-- Cursors and errors of an input beside those of its rest. -/
def shift (w : Input) (k : Nat) : Correspondence w (w.drop k) where
  cursor c d := c.position = d.position + k
  error e f := e = f.shift k
  advances h h' := by omega
  custom _ h := by rw [h, ParseError.shift]
  alternatives h h' h'' := by rw [h, h', h'', ParseError.shift]
  belowMinimum _ _ h h' := by rw [h, h', ParseError.shift]

theorem trees_shift (w : Input) (k : Nat) : (shift w k).Trees fun x y => x = y.shift k where
  sliceFrom_eq {c c' d d'} h h' := by
    have hc : c.position = d.position + k := h
    have hc' : c'.position = d'.position + k := h'
    have hmin : min (d.position + k) (d'.position + k) = min d.position d'.position + k := by omega
    rw [Cursor.sliceFrom, Cursor.sliceFrom, hc, hc', hmin, Input.slice_drop]
  unit := rfl
  element _ := rfl
  slice _ := rfl
  list {xs ys} h := by
    have hxs : xs = ys.map (Tree.shift k) := by
      rwa [← List.forall₂_eq_eq_eq, List.forall₂_map_right_iff]
    rw [hxs, Tree.shift, Tree.shiftAll_eq_map]
  pair h h' := by rw [h, h', Tree.shift]
  absent := rfl
  present h := by rw [h, Tree.shift]
  left h := by rw [h, Tree.shift]
  right h := by rw [h, Tree.shift]
  spanned _ h hc hc' := by rw [h, hc, hc', Tree.shift]

theorem outcomes_shift_iff (hk : k ≤ w.size) {α β : Type} (f : β → α) (o : Outcome w α)
    (o' : Outcome (w.drop k) β) :
    (shift w k).Outcomes (fun x y => x = f y) o o' ↔ o = o'.shift hk f := by
  cases o with
  | success x c =>
    cases o' with
    | success y d => simp [Outcomes, Outcome.shift, shift, Cursor.shift, Cursor.ext_iff]
    | failure e => simp [Outcomes, Outcome.shift]
  | failure e =>
    cases o' with
    | success y d => simp [Outcomes, Outcome.shift]
    | failure e' => simp [Outcomes, Outcome.shift, shift]

theorem parametric_shift (hk : k ≤ w.size) {rules : List (String × Grammar)}
    (hrules : ∀ r ∈ rules, r.2.PositionBlind) :
    (shift w k).Parametric (fun _ _ => True : Trail Unit → Trail Unit → Prop)
      (fun x y => x = y.shift k) rules where
  trees := trees_shift w k
  stalls _ _ _ _ _ _ := ⟨trivial, trivial⟩
  terminals {t t'} ht c d hc u u' _ := by
    obtain ⟨o, ho⟩ := t'.exists_outcome d
    obtain rfl : c = d.shift hk := Cursor.ext hc
    rw [Terminal.parser_apply (ho.shift hk ht), Terminal.parser_apply ho]
    exact ⟨(outcomes_shift_iff hk _ _ _).mpr rfl, trivial⟩
  rules r hr := hrules r hr k

end Correspondence

/-- If no function of a grammar reads the positions in spans, the grammar has at place `k` of an input
the outcome that it has at the start of what follows there, with every position moved by `k`. -/
theorem Grammar.parser_shift (hk : k ≤ w.size) {rules : List (String × Grammar)} {g : Grammar}
    (hg : ∀ g' ∈ g :: rules.map (·.2), g'.PositionBlind) (depth : Nat) (log log' : Array Record) :
    (g.parser depth (Cursor.clamp w k) ⟨log, Store.ofRules rules⟩).map (·.1) =
      (g.parser depth (Cursor.start (w.drop k)) ⟨log', Store.ofRules rules⟩).map
        fun r => r.1.shift hk (Tree.shift k) := by
  obtain ⟨hself, hrules⟩ := List.forall_mem_cons.mp hg
  have hcursor : (Correspondence.shift w k).cursor (Cursor.clamp w k) (Cursor.start (w.drop k)) := by
    show min k w.size = 0 + k
    omega
  have hshift := Correspondence.parametric_shift hk (List.forall_mem_map.mp hrules)
  have h := hshift.parsers_alike (hself k) hcursor depth log log'
  apply h.map_eq
  intro o o' _ _ ho _
  exact (Correspondence.outcomes_shift_iff hk _ _ _).mp ho

def Grammar.doubles : Grammar :=
  .atLeast 2 (.spanned (.bind (.spanned (.orElse (.is 97) (.is 98))) sameAgain))

theorem Grammar.positionBlind_doubles : doubles.PositionBlind := by
  intro k
  have hsame (e : Int) : (is e).Alike (fun x y => x = y.shift k) (is e) := .terminal (.same nofun)
  have hletter := Grammar.Alike.modify .spanned (.join (k := .choice .same) (hsame 97) (hsame 98))
  refine .modify .repeated (.modify .spanned (.bind hletter ?_))
  -- The second letter is made of the elements of the first, not of its span.
  rintro _ y rfl
  rw [sameAgain, sameAgain, Tree.elements_shift]
  exact .terminal (.same nofun)

theorem Grammar.parser_shift_doubles :
    let w : Input := ⟨.byte, #[45, 45, 97, 97, 98, 98], by decide⟩
    let v : Input := ⟨.byte, #[45, 97, 97, 46], by decide⟩
    (∀ g' ∈ [doubles], g'.PositionBlind) ∧ 2 ≤ w.size ∧ 1 ≤ v.size ∧
      (doubles.parser 9 (Cursor.clamp w 2) ⟨#[], Store.ofRules []⟩).map (·.1) =
        .ok (.success (.list [.spanned (.slice [97]) 2 4 [97, 97],
          .spanned (.slice [98]) 4 6 [98, 98]]) ⟨6, by decide⟩) ∧
      (doubles.parser 9 (Cursor.clamp v 1) ⟨#[], Store.ofRules []⟩).map (·.1) =
        .ok (.failure (.repetitionBelowMinimum 3 2 1
          (.alternativesExhausted 3 (.literalMismatch "expected 'a', found '.'" 3)
            (.literalMismatch "expected 'b', found '.'" 3)))) := by
  intro w v
  have hblind : ∀ g' ∈ [doubles], g'.PositionBlind := by
    simpa using positionBlind_doubles
  have hw : 2 ≤ w.size := by decide
  have hv : 1 ≤ v.size := by decide
  refine ⟨hblind, hw, hv, ?_, ?_⟩
  · rw [parser_shift hw hblind 9 #[] #[]]
    cbv
  · rw [parser_shift hv hblind 9 #[] #[]]
    cbv

end Descent
