import Mathlib
import Descent.Proofs.Answer
import Descent.Proofs.Composition

namespace Descent
variable {σ : Type} {w : Input} {α β : Type}

/-- Only a parse of a whole input writes the record. -/
def Record.OfParse : Record → Prop
  | begun _ => True
  | consumedAll _ => True
  | failed _ => True
  | building => False
  | stalled _ => False

namespace Run

/-- The run goes by the store alone, whatever has been logged, and adds records of `S` to the
log. -/
def Writes (S : Record → Prop) (x : Run σ α) : Prop :=
  ∀ s, (∃ why, ∀ log, x ⟨log, s⟩ = .error why) ∨
    ∃ (a : α) (records : List Record) (s' : σ),
      (∀ r ∈ records, S r) ∧ ∀ log, x ⟨log, s⟩ = .ok (a, ⟨log ++ records, s'⟩)

def result (x : Run σ α) (s : σ) : Except Stop α := (x ⟨#[], s⟩).map (·.1)

theorem map_eq_ok_iff {γ δ : Type} {x : Except Stop γ} {f : γ → δ} {b : δ} :
    x.map f = .ok b ↔ ∃ a, x = .ok a ∧ f a = b := by
  cases x <;> simp [Except.map]

namespace Writes
variable {S : Record → Prop}

theorem pure (a : α) : Writes S (Pure.pure a : Run σ α) := fun s =>
  .inr ⟨a, [], s, List.forall_mem_nil _, fun log => by simp; rfl⟩

theorem stop (why : Stop) : Writes S (Run.stop why : Run σ α) := fun _ =>
  .inl ⟨why, fun _ => rfl⟩

theorem record {r : Record} (h : S r) : Writes S (Run.record r : Run σ Unit) := fun s =>
  .inr ⟨(), [r], s, by simpa using h, fun log => by simp [Run.record]; rfl⟩

theorem onStore (f : σ → α × σ) : Writes S (Run.onStore f) := fun s =>
  .inr ⟨(f s).1, [], (f s).2, List.forall_mem_nil _, fun log => by simp [Run.onStore]; rfl⟩

theorem bind {x : Run σ α} {f : α → Run σ β} (hx : Writes S x) (hf : ∀ a, Writes S (f a)) :
    Writes S (x >>= f) := by
  intro s
  rcases hx s with ⟨why, hx⟩ | ⟨a, records, s', hr, hx⟩
  · refine .inl ⟨why, fun log => ?_⟩
    rw [bind_apply, hx]
  · rcases hf a s' with ⟨why, hf⟩ | ⟨b, records', s'', hr', hf⟩
    · refine .inl ⟨why, fun log => ?_⟩
      rw [bind_apply, hx]
      exact hf _
    · refine .inr ⟨b, records ++ records', s'', List.forall_mem_append.mpr ⟨hr, hr'⟩, fun log => ?_⟩
      rw [bind_apply, hx]
      dsimp only
      rw [hf, Record.append_append]

theorem get {k : Trail σ → Run σ α} (hk : ∀ log log' s, k ⟨log, s⟩ = k ⟨log', s⟩)
    (hw : ∀ t, Writes S (k t)) : Writes S (MonadState.get >>= k) := by
  intro s
  have hrun (log : Array Record) :
      (MonadState.get >>= k : Run σ α) ⟨log, s⟩ = k ⟨#[], s⟩ ⟨log, s⟩ := by
    rw [bind_apply, get_apply]
    dsimp only
    rw [hk log #[]]
  simp only [hrun]
  exact hw ⟨#[], s⟩ s

/-- The second run is there to fit the rules, which speak of two. -/
theorem composes (hS : ∀ position, S (.stalled position)) :
    Composes fun _ (x y : Run σ _) => Writes S x ∧ x = y where
  pure a := ⟨pure a, rfl⟩
  bind := by
    rintro _ _ x _ f g ⟨hx, rfl⟩ hf
    exact ⟨hx.bind fun a => (hf a).1, bind_congr fun a => (hf a).2⟩
  stalled position := ⟨record (hS position), rfl⟩

theorem map_fst {x : Run σ α} (h : Writes S x) (log : Array Record) (s : σ) :
    (x ⟨log, s⟩).map (·.1) = x.result s := by
  rw [result]
  rcases h s with ⟨why, hx⟩ | ⟨a, records, s', _, hx⟩
  · rw [hx, hx]
  · rw [hx, hx]
    rfl

theorem log_eq {x : Run σ α} (h : Writes S x) {log : Array Record} {s : σ} {a : α} {t : Trail σ}
    (hx : x ⟨log, s⟩ = .ok (a, t)) : ∃ records : List Record,
      (∀ r ∈ records, S r) ∧ t.log = log ++ records := by
  rcases h s with ⟨why, hs⟩ | ⟨b, records, s', hr, hs⟩
  · rw [hs] at hx
    cases hx
  · rw [hs] at hx
    obtain ⟨-, rfl⟩ := Prod.mk.inj (Except.ok.inj hx)
    exact ⟨records, hr, rfl⟩

end Writes

end Run

section
open Run (Writes)
variable {S : Record → Prop} {deeper : List Nat → Assembled → Parser Store w Tree}

theorem Store.writes_force (hb : S .building) (i : Nat) : Writes S (Store.force i) := by
  refine .get (fun _ _ _ => rfl) fun t => ?_
  cases t.store.cells[i]? with
  | none => exact .stop _
  | some cell =>
    dsimp only
    cases cell.parser? with
    | some p => exact .pure p
    | none => exact (Writes.record hb).bind fun _ => .onStore _

theorem Handle.writes_follow (hb : S .building) (hd : ∀ running p c, Writes S (deeper running p c))
    (running : List Nat) (h : Handle) (c : Cursor w) : Writes S (h.follow deeper running c) := by
  refine .get (fun _ _ _ => rfl) fun t => ?_
  split
  · exact .pure _
  · exact (Store.writes_force hb h.cell).bind fun p => hd _ p c

theorem Grammar.writes_follow (hd : ∀ running p c, Writes S (deeper running p c))
    (running : List Nat) (scope : Scope) (g : Grammar) (c : Cursor w) :
    Writes S (g.follow deeper running scope c) :=
  (Writes.onStore _).bind fun p => hd _ p c

namespace Assembled

theorem writes_interpret (hb : S .building) (hS : ∀ position, S (.stalled position))
    (hd : ∀ running p c, Writes S (deeper running p c)) (running : List Nat) (p : Assembled)
    (c : Cursor w) : Writes S (p.interpret deeper running c) := by
  have hcomp := Writes.composes (σ := Store) hS
  induction p generalizing c with
  | terminal t => exact (hcomp.terminal t c).1
  | modify m p ih => exact (hcomp.modifier m (fun c => ⟨ih c, rfl⟩) c).1
  | join k p q ih ih' =>
    exact (hcomp.connective k (fun c => ⟨ih c, rfl⟩) (fun c => ⟨ih' c, rfl⟩) c).1
  | between p q r ih ih' ih'' =>
    have hbetween := hcomp.between (fun c => ⟨ih c, rfl⟩) (fun c => ⟨ih' c, rfl⟩)
      (fun c => ⟨ih'' c, rfl⟩) c
    exact hbetween.1
  | bind p scope f ih =>
    refine (ih c).bind fun o => ?_
    cases o with
    | success x d => exact (f x).writes_follow hd running scope d
    | failure e => exact .pure _
  | refer h => exact h.writes_follow hb hd running c

theorem writes_run (hb : S .building) (hS : ∀ position, S (.stalled position)) (depth : Nat)
    (running : List Nat) (p : Assembled) (c : Cursor w) : Writes S (p.run depth running c) := by
  induction depth generalizing running p c with
  | zero => exact .stop _
  | succ depth ih => exact p.writes_interpret hb hS ih running c

end Assembled

theorem Grammar.parser_writes (hb : S .building) (hS : ∀ position, S (.stalled position))
    (depth : Nat) (g : Grammar) (c : Cursor w) : (g.parser depth c).Writes S :=
  g.writes_follow (fun running p c => p.writes_run hb hS depth running c) [] [] c

theorem Handle.parser_writes (hb : S .building) (hS : ∀ position, S (.stalled position))
    (depth : Nat) (h : Handle) (c : Cursor w) : (h.parser depth c).Writes S :=
  h.writes_follow hb (fun running p c => p.writes_run hb hS depth running c) [] c

end

def Parser.toEnd (p : Parser σ w α) : Parser σ w α := seqWith (fun x _ => x) p endOfInput

namespace Outcome
variable {o : Outcome w α} {x : α} {d : Cursor w}

/-- What an outcome comes to if the end of the input has to follow. -/
def toEnd : Outcome w α → Outcome w α
  | failure e => failure e
  | success x c => match c.element? with
    | none => success x c
    | some y =>
      failure (.literalMismatch (Parser.expectedFound w "end of input" y) c.position)

theorem wholly_success_of_lt (x : α) (h : d.position < w.size) :
    (success x d).wholly = .error (.partialMatch d.position w.size) := by
  have hend : ¬d.atEnd = true := fun hend => Nat.ne_of_lt h (d.atEnd_iff.mp hend)
  rw [wholly, if_neg hend]

theorem toEnd_success_of_lt (x : α) (h : d.position < w.size) : ∃ reason,
    (success x d).toEnd = failure (.literalMismatch reason d.position) := by
  cases hd : d.element? with
  | none => exact absurd (d.element?_eq_none_iff.mp hd) (Nat.ne_of_lt h)
  | some y => exact ⟨_, by rw [toEnd, hd]⟩

theorem wholly_success_of_eq (x : α) (h : d.position = w.size) : (success x d).wholly = .ok x := by
  rw [wholly, if_pos (d.atEnd_iff.mpr h)]

theorem toEnd_success_of_eq (x : α) (h : d.position = w.size) :
    (success x d).toEnd = success x d := by
  rw [toEnd, d.element?_eq_none_iff.mpr h]

theorem wholly_eq_ok_iff : o.wholly = .ok x ↔ ∃ d, o = success x d ∧ d.position = w.size := by
  constructor
  · intro h
    cases o with
    | failure e => cases h
    | success y d =>
      rcases Nat.lt_or_eq_of_le d.le_size with hlt | heq
      · rw [wholly_success_of_lt y hlt] at h
        cases h
      · rw [wholly_success_of_eq y heq] at h
        cases h
        exact ⟨d, rfl, heq⟩
  · rintro ⟨d, rfl, heq⟩
    exact wholly_success_of_eq x heq

theorem toEnd_eq_success_iff : o.toEnd = success x d ↔ o = success x d ∧ d.position = w.size := by
  constructor
  · intro h
    cases o with
    | failure e => cases h
    | success y d' =>
      rcases Nat.lt_or_eq_of_le d'.le_size with hlt | heq
      · obtain ⟨reason, hfail⟩ := toEnd_success_of_lt y hlt
        rw [hfail] at h
        cases h
      · rw [toEnd_success_of_eq y heq] at h
        cases h
        exact ⟨rfl, heq⟩
  · rintro ⟨rfl, heq⟩
    exact toEnd_success_of_eq x heq

end Outcome

namespace Parser
open Run (Writes)
variable {S : Record → Prop} {p : Parser σ w α}

theorem toEnd_apply (p : Parser σ w α) (c : Cursor w) :
    p.toEnd c = (p c >>= fun o => pure o.toEnd) := by
  refine bind_congr fun o => ?_
  cases o with
  | failure e => rfl
  | success x d =>
    simp only [endOfInput, Outcome.toEnd]
    cases d.element? <;> rfl

theorem writes_toEnd (hp : ∀ c, (p c).Writes S) (c : Cursor w) : (p.toEnd c).Writes S := by
  rw [toEnd_apply]
  exact (hp c).bind fun _ => .pure _

theorem result_toEnd (p : Parser σ w α) (c : Cursor w) (s : σ) :
    (p.toEnd c).result s = ((p c).result s).map Outcome.toEnd := by
  rw [Run.result, Run.result, toEnd_apply, Run.bind_apply]
  cases p c ⟨#[], s⟩ <;> rfl

theorem result_parseAll (hp : ∀ c, (p c).Writes S) (s : σ) :
    (parseAll p).result s = ((p (Cursor.start w)).result s).map Outcome.wholly := by
  rw [← (hp _).map_fst #[.begun w.size] s, Run.result, parseAll_apply]
  show ((p (Cursor.start w) ⟨#[.begun w.size], s⟩).map _).map _ = _
  cases p (Cursor.start w) ⟨#[.begun w.size], s⟩ <;> rfl

theorem result_parseAll_of_eq (hp : ∀ c, (p c).Writes S) {s : σ} {o : Outcome w α}
    (h : (p (Cursor.start w)).result s = .ok o) : (parseAll p).result s = .ok o.wholly := by
  rw [result_parseAll hp, h]
  rfl

theorem result_parseAll_ok_iff (hp : ∀ c, (p c).Writes S) {s : σ} {x : α} :
    (parseAll p).result s = .ok (.ok x) ↔
      ∃ d, (p (Cursor.start w)).result s = .ok (.success x d) ∧ d.position = w.size := by
  rw [result_parseAll hp, Run.map_eq_ok_iff]
  constructor
  · rintro ⟨o, ho, hx⟩
    obtain ⟨d, rfl, hd⟩ := Outcome.wholly_eq_ok_iff.mp hx
    exact ⟨d, ho, hd⟩
  · rintro ⟨d, ho, hd⟩
    exact ⟨_, ho, Outcome.wholly_success_of_eq x hd⟩

theorem result_toEnd_of_eq {c : Cursor w} {s : σ} {o : Outcome w α} (h : (p c).result s = .ok o) :
    (p.toEnd c).result s = .ok o.toEnd := by
  rw [result_toEnd, h]
  rfl

theorem result_toEnd_success_iff {c : Cursor w} {s : σ} {x : α} {d : Cursor w} :
    (p.toEnd c).result s = .ok (.success x d) ↔
      (p c).result s = .ok (.success x d) ∧ d.position = w.size := by
  rw [result_toEnd, Run.map_eq_ok_iff]
  constructor
  · rintro ⟨o, ho, hx⟩
    obtain ⟨rfl, hd⟩ := Outcome.toEnd_eq_success_iff.mp hx
    exact ⟨ho, hd⟩
  · rintro ⟨ho, hd⟩
    exact ⟨_, ho, Outcome.toEnd_success_of_eq x hd⟩

/-- Between its first and its last record a parse writes what its parser does. -/
theorem log_parseAll (hp : ∀ c, (p c).Writes S) {s : σ} {r : Except ParseError α} {t : Trail σ}
    (h : parseAll p ⟨#[], s⟩ = .ok (r, t)) : ∃ records : List Record, (∀ m ∈ records, S m) ∧
      t.log.toList = .begun w.size :: records ++ [.closing w r] := by
  rw [parseAll_apply] at h
  obtain ⟨⟨o, u⟩, hrun, heq⟩ := Run.map_eq_ok_iff.mp h
  obtain ⟨rfl, rfl⟩ := Prod.mk.inj heq
  obtain ⟨records, hr, hlog⟩ := (hp _).log_eq hrun
  exact ⟨records, hr, by simp [hlog]⟩

end Parser

namespace Assembled

def toEnd (p : Assembled) : Assembled := join (.sequence .left) p (.terminal .endOfInput)

theorem holds_toEnd (p : Assembled) : p.toEnd.holds = p.holds := List.append_nil _

theorem run_toEnd (depth : Nat) (running : List Nat) (p : Assembled) :
    (p.toEnd.run depth running : Parser Store w Tree) = (p.run depth running).toEnd := by
  cases depth with
  | zero => rfl
  | succ depth =>
    funext c
    refine bind_congr fun o => ?_
    cases o with
    | failure e => rfl
    | success x d =>
      simp only [interpret, Terminal.parser, Parser.map, Parser.endOfInput]
      cases d.element? <;> rfl

end Assembled

theorem Grammar.parser_seq_endOfInput (depth : Nat) (g : Grammar) :
    ((g.seq .left .endOfInput).parser depth : Parser Store w Tree) = (g.parser depth).toEnd := by
  funext c
  calc (g.seq .left .endOfInput).parser depth c
      = Run.onStore (g.assemble []) >>= fun p => p.toEnd.run depth (p.toEnd.holds ++ []) c := rfl
    _ = Run.onStore (g.assemble []) >>= fun p => (p.run depth (p.holds ++ [])).toEnd c := by
      simp only [Assembled.holds_toEnd, Assembled.run_toEnd]
    _ = (g.parser depth).toEnd c := (bind_assoc _ _ _).symm

/-- What a parse of a whole input tells about a parser `p`, whose end it compares with that of the
input. It succeeds where `p` followed by the end of the input does, as a whole parse or only from
the start, and they fail at one place where `p` stops early. This is so for grammars as well, and in
the log of a grammar's parse one record of the parse is at the start and one, which tells the answer,
at the end. -/
theorem whole_parse :
    (∀ {σ α : Type} {w : Input} (p : Parser σ w α), (∀ c, (p c).Writes fun _ => True) → ∀ s : σ,
      (∀ x, (Parser.parseAll p).result s = .ok (.ok x) ↔
        ∃ d, (p (Cursor.start w)).result s = .ok (.success x d) ∧ d.position = w.size) ∧
      (∀ x d, (p (Cursor.start w)).result s = .ok (.success x d) → d.position < w.size →
        (Parser.parseAll p).result s = .ok (.error (.partialMatch d.position w.size)) ∧
        ∃ reason,
          (Parser.parseAll p.toEnd).result s = .ok (.error (.literalMismatch reason d.position)) ∧
          (p.toEnd (Cursor.start w)).result s =
            .ok (.failure (.literalMismatch reason d.position))) ∧
      (∀ e, (p (Cursor.start w)).result s = .ok (.failure e) →
        (Parser.parseAll p).result s = .ok (.error e)) ∧
      ∀ x, ((Parser.parseAll p.toEnd).result s = .ok (.ok x) ↔
          (Parser.parseAll p).result s = .ok (.ok x)) ∧
        ((∃ d, (p.toEnd (Cursor.start w)).result s = .ok (.success x d)) ↔
          (Parser.parseAll p).result s = .ok (.ok x))) ∧
    ∀ (w : Input) (depth : Nat),
      (∀ g : Grammar, ((g.seq .left .endOfInput).parser depth : Parser Store w Tree) =
        (g.parser depth).toEnd) ∧
      ∀ p : Parser Store w Tree,
        ((∃ g : Grammar, p = g.parser depth) ∨ ∃ h : Handle, p = h.parser depth) →
        (∀ c, (p c).Writes fun _ => True) ∧
        ∀ s r t, Parser.parseAll p ⟨#[], s⟩ = .ok (r, t) → ∃ between last,
          t.log.toList = .begun w.size :: between ++ [last] ∧ (∀ m ∈ between, ¬m.OfParse) ∧
          (∀ x, r = .ok x → last = .consumedAll w.size) ∧
          ∀ e, r = .error e → last = .failed e ∧ last.level = "DEBUG" ∧
            last.message = "parse failed: " ++ e.message := by
  refine ⟨fun {σ α w} p hp s => ?_, fun w depth => ⟨fun g => g.parser_seq_endOfInput depth,
    fun p hp => ?_⟩⟩
  · have hok {x : α} := Parser.result_parseAll_ok_iff hp (s := s) (x := x)
    refine ⟨fun x => hok, fun x d h hlt => ?_, fun e h => Parser.result_parseAll_of_eq hp h,
      fun x => ⟨?_, ?_⟩⟩
    · obtain ⟨reason, hreason⟩ := Outcome.toEnd_success_of_lt x hlt
      have hend := Parser.result_toEnd_of_eq h
      have hall := Parser.result_parseAll_of_eq (Parser.writes_toEnd hp) hend
      rw [hreason] at hend hall
      rw [Parser.result_parseAll_of_eq hp h, Outcome.wholly_success_of_lt x hlt]
      exact ⟨rfl, reason, hall, hend⟩
    · rw [hok, Parser.result_parseAll_ok_iff (Parser.writes_toEnd hp)]
      simp only [Parser.result_toEnd_success_iff, and_assoc, and_self]
    · simp only [hok, Parser.result_toEnd_success_iff]
  · have hw {S : Record → Prop} (hb : S .building) (hS : ∀ position, S (.stalled position))
        (c : Cursor w) : (p c).Writes S := by
      rcases hp with ⟨g, rfl⟩ | ⟨h, rfl⟩
      · exact g.parser_writes hb hS depth c
      · exact h.parser_writes hb hS depth c
    refine ⟨hw trivial fun _ => trivial, fun s r t hrun => ?_⟩
    obtain ⟨between, hbetween, hlog⟩ :=
      Parser.log_parseAll (S := fun m => ¬m.OfParse) (hw id fun _ => id) hrun
    refine ⟨between, .closing w r, hlog, hbetween, ?_, ?_⟩
    · rintro x rfl
      rfl
    · rintro e rfl
      exact ⟨rfl, rfl, rfl⟩

theorem whole_parse_early :
    let w : Input := ⟨.byte, #[97], by decide⟩
    let g := (Grammar.literal []).many
    let p : Parser Store w Tree := g.parser 1
    let c := Cursor.start w
    (∀ c, (p c).Writes fun _ => True) ∧
      (p c).result {} = .ok (.success (.list [.slice []]) c) ∧ c.position < w.size ∧
      (Parser.parseAll p).result {} = .ok (.error (.partialMatch 0 1)) ∧
      (∃ reason, (p.toEnd c).result {} = .ok (.failure (.literalMismatch reason 0))) ∧
      ∃ r t, Parser.parseAll p ⟨#[], {}⟩ = .ok (r, t) ∧ ∃ between last,
        t.log.toList = .begun 1 :: between ++ [last] ∧ ∀ m ∈ between, ¬m.OfParse := by
  intro w g p c
  obtain ⟨hp, hlog⟩ := (whole_parse.2 w 1).2 p (.inl ⟨g, rfl⟩)
  have hrun : (p c).result {} = .ok (.success (.list [.slice []]) c) := by
    show ((Grammar.literal []).many.parser 1 (Cursor.start w)).result {} = _
    cbv
  have hlt : c.position < w.size := by decide
  obtain ⟨hall, reason, -, hend⟩ := (whole_parse.1 p hp {}).2.1 _ c hrun hlt
  refine ⟨hp, hrun, hlt, hall, ⟨reason, hend⟩, ?_⟩
  obtain ⟨⟨r, t⟩, hparse, -⟩ := Run.map_eq_ok_iff.mp hall
  obtain ⟨between, last, hbetween, hdriver, -⟩ := hlog {} r t hparse
  exact ⟨r, t, hparse, between, last, hbetween, hdriver⟩

end Descent
