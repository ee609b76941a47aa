import Descent.Excerpt

namespace Descent.ParseError
variable {w : Input}

/-- An error and all errors below it, which are the branches of two failed alternatives and the
cause that stopped a repetition. -/
def nodes : ParseError → List ParseError
  | alternativesExhausted p left right =>
    alternativesExhausted p left right :: (left.nodes ++ right.nodes)
  | repetitionBelowMinimum p min matched cause =>
    repetitionBelowMinimum p min matched cause :: cause.nodes
  | e => [e]

/-- At `p` there is an element, and `reason` tells that it was found. -/
def Tells (w : Input) (reason : String) (p : Nat) : Prop :=
  ∃ x, w.codes[p]? = some x ∧
    ∃ before after, reason = before ++ ("found " ++ w.kind.describe x) ++ after

/-- What a node says by itself is true. -/
def Holds (w : Input) : ParseError → Prop
  | unexpectedEnd p => p = w.size
  | literalMismatch reason p => p < w.size ∧ Tells w reason p
  | rangeMismatch reason p => p < w.size ∧ Tells w reason p
  | alternativesExhausted _ _ _ => True
  | repetitionBelowMinimum _ min matched _ => 1 ≤ matched ∧ matched < min
  | partialMatch _ _ => False
  | custom _ _ => True

/-- Every node lies in the input, neither before `s` nor before the node above it, and what it says
is true. -/
def TruthfulFrom (w : Input) (s : Nat) (e : ParseError) : Prop :=
  ∀ n ∈ e.nodes, s ≤ n.position ∧ n.position ≤ w.size ∧
    (∀ m ∈ n.nodes, n.position ≤ m.position) ∧ n.Holds w

theorem mem_nodes_self (e : ParseError) : e ∈ e.nodes := by
  cases e <;> simp [nodes]

theorem furthest_mem_nodes (e : ParseError) : e.furthest ∈ e.nodes := by
  induction e with
  | alternativesExhausted p left right ihl ihr =>
    rw [furthest, nodes]
    split
    · exact List.mem_cons_of_mem _ (List.mem_append_right _ ihr)
    · exact List.mem_cons_of_mem _ (List.mem_append_left _ ihl)
  | _ => exact mem_nodes_self _

namespace TruthfulFrom

theorem mono {s s' : Nat} {e : ParseError} (h : TruthfulFrom w s e) (hs : s' ≤ s) :
    TruthfulFrom w s' e := by
  intro n hn
  obtain ⟨hle, hrest⟩ := h n hn
  exact ⟨Nat.le_trans hs hle, hrest⟩

theorem position_le {s : Nat} {e : ParseError} (h : TruthfulFrom w s e) : e.position ≤ w.size :=
  (h e e.mem_nodes_self).2.1

theorem position_le_furthest {s : Nat} {e : ParseError} (h : TruthfulFrom w s e) :
    e.position ≤ e.furthest.position :=
  (h e e.mem_nodes_self).2.2.1 _ e.furthest_mem_nodes

theorem of_nodes_eq {e : ParseError} {below : List ParseError} (hnodes : e.nodes = e :: below)
    (hsize : e.position ≤ w.size) (he : e.Holds w)
    (hbelow : ∀ n ∈ below, e.position ≤ n.position ∧ n.position ≤ w.size ∧
      (∀ m ∈ n.nodes, n.position ≤ m.position) ∧ n.Holds w) :
    TruthfulFrom w e.position e := by
  intro n hn
  rw [hnodes] at hn
  rcases List.mem_cons.mp hn with rfl | hn
  · refine ⟨Nat.le_refl _, hsize, fun m hm => ?_, he⟩
    rw [hnodes] at hm
    rcases List.mem_cons.mp hm with rfl | hm
    · exact Nat.le_refl _
    · exact (hbelow m hm).1
  · exact hbelow n hn

theorem leaf {e : ParseError} (hnodes : e.nodes = [e]) (hsize : e.position ≤ w.size)
    (he : e.Holds w) : TruthfulFrom w e.position e :=
  of_nodes_eq hnodes hsize he fun _ hn => absurd hn List.not_mem_nil

theorem alternativesExhausted {p : Nat} {left right : ParseError} (hsize : p ≤ w.size)
    (hl : TruthfulFrom w p left) (hr : TruthfulFrom w p right) :
    TruthfulFrom w p (.alternativesExhausted p left right) := by
  refine of_nodes_eq rfl hsize trivial fun n hn => ?_
  rcases List.mem_append.mp hn with hn | hn
  · exact hl n hn
  · exact hr n hn

theorem repetitionBelowMinimum {p min matched : Nat} {cause : ParseError} (hsize : p ≤ w.size)
    (hpos : 0 < matched) (hlt : matched < min) (hc : TruthfulFrom w p cause) :
    TruthfulFrom w p (.repetitionBelowMinimum p min matched cause) :=
  of_nodes_eq rfl hsize ⟨hpos, hlt⟩ hc

theorem custom {reason : String} {p : Nat} (hsize : p ≤ w.size) :
    TruthfulFrom w p (.custom reason p) :=
  leaf rfl hsize trivial

theorem unexpectedEnd : TruthfulFrom w w.size (.unexpectedEnd w.size) :=
  leaf rfl (Nat.le_refl _) rfl

theorem literalMismatch {reason : String} {p : Nat} (h : Tells w reason p) :
    TruthfulFrom w p (.literalMismatch reason p) := by
  obtain ⟨x, hx, -⟩ := id h
  have hlt : p < w.size := (Array.getElem?_eq_some_iff.mp hx).1
  exact leaf rfl (Nat.le_of_lt hlt) ⟨hlt, h⟩

theorem rangeMismatch {reason : String} {p : Nat} (h : Tells w reason p) :
    TruthfulFrom w p (.rangeMismatch reason p) := by
  obtain ⟨x, hx, -⟩ := id h
  have hlt : p < w.size := (Array.getElem?_eq_some_iff.mp hx).1
  exact leaf rfl (Nat.le_of_lt hlt) ⟨hlt, h⟩

end TruthfulFrom

end Descent.ParseError
