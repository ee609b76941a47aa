import Descent.Proofs.Containment

namespace Descent
variable {w : Input}

namespace Position

theorem toNat_min (p q : UInt64) : (min p q).toNat = min p.toNat q.toNat := by
  show (if p ≤ q then p else q).toNat = _
  rw [Nat.min_def, apply_ite UInt64.toNat]
  simp only [UInt64.le_iff_toNat_le]

/-- The sum of two words, or the last word where the sum wraps round. -/
def wordSum (p n : UInt64) : UInt64 := if p + n < p then 0xFFFFFFFFFFFFFFFF else p + n

/-- A sum of words has wrapped round exactly if it is smaller than one of them. -/
theorem add_lt_iff (p n : UInt64) : p + n < p ↔ last < p.toNat + n.toNat := by
  have hp := p.toNat_lt
  have hn := n.toNat_lt
  rw [UInt64.lt_iff_toNat_lt, UInt64.toNat_add, last]
  omega

theorem toNat_wordSum (p n : UInt64) : (wordSum p n).toNat = advance p.toNat n.toNat := by
  rw [wordSum]
  split
  case isTrue h =>
    have hlast : last < p.toNat + n.toNat := (add_lt_iff p n).mp h
    exact (Nat.min_eq_right (Nat.le_of_lt hlast)).symm
  case isFalse h =>
    have hlast : p.toNat + n.toNat ≤ last := Nat.le_of_not_lt (mt (add_lt_iff p n).mpr h)
    rw [advance_of_le hlast, UInt64.toNat_add]
    exact Nat.mod_eq_of_lt (Nat.lt_succ_of_le hlast)

end Position

namespace Input

def wordSize (w : Input) : UInt64 := .ofNat w.size

theorem toNat_wordSize (w : Input) : w.wordSize.toNat = w.size := by
  rw [wordSize, UInt64.toNat_ofNat']
  exact Nat.mod_eq_of_lt w.size_lt

/-- The elements from `start` up to `stop`, if the two words are a range of the input. -/
def slice? (w : Input) (start stop : UInt64) : Option (List Int) :=
  if start ≤ stop ∧ stop ≤ w.wordSize then
    some ((w.codes.toList.take stop.toNat).drop start.toNat)
  else none

theorem slice?_of_le {start stop : UInt64} (h : start.toNat ≤ stop.toNat)
    (hstop : stop.toNat ≤ w.size) :
    w.slice? start stop = some (w.slice start.toNat stop.toNat) := by
  have hrange : start ≤ stop ∧ stop ≤ w.wordSize := by
    rw [UInt64.le_iff_toNat_le, UInt64.le_iff_toNat_le, toNat_wordSize]
    exact ⟨h, hstop⟩
  rw [slice?, if_pos hrange, slice_eq, List.drop_take]

end Input

/-- A cursor that may be anywhere. -/
structure WordCursor (w : Input) where
  offset : UInt64

namespace WordCursor

def start (w : Input) : WordCursor w := ⟨0⟩

def clamp (w : Input) (p : UInt64) : WordCursor w := ⟨min p w.wordSize⟩

def advance (k : WordCursor w) (n : UInt64) : WordCursor w := clamp w (Position.wordSum k.offset n)

def next (k : WordCursor w) : WordCursor w := k.advance 1

def value (k : WordCursor w) : Except ParseError Int :=
  match w.codes[k.offset.toNat]? with
  | some x => .ok x
  | none => .error (.unexpectedEnd k.offset.toNat)

def atEnd (k : WordCursor w) : Bool := w.wordSize ≤ k.offset

def remaining? (k : WordCursor w) : Option (List Int) := w.slice? k.offset w.wordSize

def sliceFrom? (k : WordCursor w) (start : UInt64) : Option (List Int) :=
  w.slice? (min start k.offset) k.offset

theorem ext_toNat {k l : WordCursor w} (h : k.offset.toNat = l.offset.toNat) : k = l := by
  cases k
  cases l
  exact congrArg mk (UInt64.toNat_inj.mp h)

theorem toNat_offset_clamp (w : Input) (p : UInt64) :
    (clamp w p).offset.toNat = min p.toNat w.size := by
  rw [clamp, Position.toNat_min, Input.toNat_wordSize]

end WordCursor

structure WordSpan (w : Input) where
  start : UInt64
  stop : UInt64

namespace WordSpan

def slice? (s : WordSpan w) : Option (List Int) :=
  w.slice? (min s.start (min s.stop w.wordSize)) (min s.stop w.wordSize)

/-- The positions of the words. -/
def toSpan (s : WordSpan w) : Span w := ⟨s.start.toNat, s.stop.toNat⟩

end WordSpan

namespace Cursor

/-- The cursor of the same position. -/
def toWord (c : Cursor w) : WordCursor w := ⟨.ofNat c.position⟩

theorem toNat_toWord (c : Cursor w) : c.toWord.offset.toNat = c.position := by
  rw [toWord, UInt64.toNat_ofNat']
  exact Nat.mod_eq_of_lt (Nat.lt_of_le_of_lt c.le_size w.size_lt)

theorem toWord_clamp (w : Input) (p : UInt64) :
    (clamp w p.toNat).toWord = WordCursor.clamp w p := by
  refine WordCursor.ext_toNat ?_
  rw [toNat_toWord, WordCursor.toNat_offset_clamp, clamp]

theorem toWord_advance (c : Cursor w) (n : UInt64) :
    (c.advance n.toNat).toWord = c.toWord.advance n := by
  rw [advance, WordCursor.advance, ← toWord_clamp, Position.toNat_wordSum, toNat_toWord]

theorem value_toWord (c : Cursor w) : c.toWord.value = c.value := by
  rw [WordCursor.value, toNat_toWord]
  rfl

theorem atEnd_toWord (c : Cursor w) : c.toWord.atEnd = c.atEnd := by
  rw [WordCursor.atEnd, atEnd, decide_eq_decide, UInt64.le_iff_toNat_le, toNat_toWord,
    Input.toNat_wordSize]

theorem remaining?_toWord (c : Cursor w) : c.toWord.remaining? = some c.remaining := by
  have hc := c.toNat_toWord
  have hsize := w.toNat_wordSize
  have hle : c.toWord.offset.toNat ≤ w.wordSize.toNat := by
    rw [hc, hsize]
    exact c.le_size
  rw [WordCursor.remaining?, Input.slice?_of_le hle (Nat.le_of_eq hsize), hc, hsize, remaining]

theorem sliceFrom?_toWord (c : Cursor w) (p : UInt64) :
    c.toWord.sliceFrom? p = some (c.sliceFrom p.toNat) := by
  have hc := c.toNat_toWord
  have hmin : (min p c.toWord.offset).toNat = min p.toNat c.position := by
    rw [Position.toNat_min, hc]
  have hle : (min p c.toWord.offset).toNat ≤ c.toWord.offset.toNat := by
    rw [hmin, hc]
    exact Nat.min_le_right _ _
  rw [WordCursor.sliceFrom?, Input.slice?_of_le hle (hc ▸ c.le_size), hmin, hc, sliceFrom]

end Cursor

/-- A span is cut like what lies between its start and the cursor at its end. -/
theorem WordSpan.slice?_eq (s : WordSpan w) : s.slice? = some s.toSpan.slice := by
  have hcursor : s.slice? = (WordCursor.clamp w s.stop).sliceFrom? s.start := rfl
  rw [hcursor, ← Cursor.toWord_clamp, Cursor.sliceFrom?_toWord]
  rfl

namespace Cursor

/-- How a cursor comes about. -/
inductive Move
  | start
  | clamp (p : UInt64)
  | next
  | advance (n : UInt64)

namespace Move

def cursor : Move → Cursor w → Cursor w
  | start, _ => .start w
  | clamp p, _ => .clamp w p.toNat
  | next, c => c.next
  | advance n, c => c.advance n.toNat

def word : Move → WordCursor w → WordCursor w
  | start, _ => .start w
  | clamp p, _ => .clamp w p
  | next, k => k.next
  | advance n, k => k.advance n

/-- Where the move leads by unbounded counting, were there no end of the input. -/
def count : Move → Nat → Nat
  | start, _ => 0
  | clamp p, _ => p.toNat
  | next, p => p + 1
  | advance n, p => p + n.toNat

theorem toWord_cursor (m : Move) (c : Cursor w) : (m.cursor c).toWord = m.word c.toWord := by
  cases m with
  | start => rfl
  | clamp p => exact toWord_clamp w p
  | next => exact c.toWord_advance 1
  | advance n => exact c.toWord_advance n

theorem position_cursor (m : Move) {c : Cursor w} {p : Nat} (h : c.position = min p w.size) :
    (m.cursor c).position = min (m.count p) w.size := by
  cases m with
  | start => exact (Nat.zero_min _).symm
  | clamp q => rfl
  | next =>
    rw [cursor, Cursor.next, advance_position, h, count]
    omega
  | advance n =>
    rw [cursor, advance_position, h, count]
    omega

end Move

def along (c : Cursor w) (moves : List Move) : Cursor w := moves.foldl (fun d m => m.cursor d) c

end Cursor

def WordCursor.along (k : WordCursor w) (moves : List Cursor.Move) : WordCursor w :=
  moves.foldl (fun l m => m.word l) k

def Cursor.Move.countAll (p : Nat) (moves : List Cursor.Move) : Nat :=
  moves.foldl (fun q m => m.count q) p

namespace Cursor

theorem toWord_along (c : Cursor w) (moves : List Move) :
    (c.along moves).toWord = c.toWord.along moves := by
  induction moves generalizing c with
  | nil => rfl
  | cons m moves ih =>
    have hfirst : c.toWord.along (m :: moves) = (m.word c.toWord).along moves := rfl
    rw [hfirst, ← m.toWord_cursor]
    exact ih (m.cursor c)

/-- To be cut off at the end of the input by every move comes to being cut off once. -/
theorem position_along {c : Cursor w} {p : Nat} (h : c.position = min p w.size)
    (moves : List Move) : (c.along moves).position = min (Move.countAll p moves) w.size := by
  induction moves generalizing c p with
  | nil => exact h
  | cons m moves ih => exact ih (m.position_cursor h)

/-- Behind the first element an advance by the last word ends at the end. With an addition that
wraps round it would end at the start. -/
example : ((WordCursor.start ⟨.byte, #[97, 98, 99], by decide⟩).along
    [.next, .advance 0xFFFFFFFFFFFFFFFF]).offset = 3 := by
  decide

theorem value_of_lt {c : Cursor w} (h : c.position < w.codes.size) :
    c.value = .ok w.codes[c.position] := by
  rw [value, element?, Array.getElem?_eq_getElem h]

theorem value_of_eq {c : Cursor w} (h : c.position = w.size) :
    c.value = .error (.unexpectedEnd w.size) := by
  rw [value, c.element?_eq_none_iff.mpr h, h]

theorem atEnd_eq_false_iff_value (c : Cursor w) :
    c.atEnd = false ↔ ∃ h : c.position < w.codes.size, c.value = .ok w.codes[c.position] := by
  rw [← Bool.not_eq_true, atEnd_iff]
  constructor
  · intro hne
    have hlt : c.position < w.codes.size := Nat.lt_of_le_of_ne c.le_size hne
    exact ⟨hlt, value_of_lt hlt⟩
  · rintro ⟨hlt, -⟩
    exact Nat.ne_of_lt hlt

theorem atEnd_iff_value (c : Cursor w) :
    c.atEnd = true ↔ c.value = .error (.unexpectedEnd w.size) := by
  refine ⟨fun h => value_of_eq (c.atEnd_iff.mp h), fun h => ?_⟩
  rw [← Bool.not_eq_false, atEnd_eq_false_iff_value]
  rintro ⟨hlt, hvalue⟩
  rw [hvalue] at h
  cases h

theorem sliceFrom_append_remaining (c : Cursor w) (p : Nat) :
    c.sliceFrom p ++ c.remaining = w.codes.toList.drop (min p c.position) := by
  let b : Cursor w := ⟨min p c.position, Nat.le_trans (Nat.min_le_right _ _) c.le_size⟩
  have hb : b.position ≤ c.position := Nat.min_le_right _ _
  have hslice : c.sliceFrom b.position = c.sliceFrom p := by
    rw [sliceFrom, sliceFrom, Nat.min_eq_left hb]
  rw [← hslice, ← remaining_eq_append hb, remaining_eq_drop]

end Cursor

/-- Let a cursor of words and a cursor make the same moves. Both come to the same position, which lies
in the input: the one that unbounded counting gives or, if that lies behind the input, its end. Two
more advances lead on by their unbounded sum in the same way. Both see the element at this position,
or at the end of the input an unexpected end. What both cut from any position on, and what remains for
both, makes up the input from there on, or from the cursor on if that comes first. A span of any two
words is the range of the input that is left of it when its end and then its start are moved back.
Everything that is cut was a range of the input. -/
theorem cursors_fit_words (w : Input) (moves : List Cursor.Move) :
    let k := (WordCursor.start w).along moves
    let c := (Cursor.start w).along moves
    (k.offset.toNat = c.position ∧ k.offset.toNat ≤ w.size ∧
      c.position = min (Cursor.Move.countAll 0 moves) w.size) ∧
    (∀ m n : UInt64,
      ((k.advance m).advance n).offset.toNat =
        min (k.offset.toNat + m.toNat + n.toNat) w.size ∧
      ((c.advance m.toNat).advance n.toNat).position =
        min (c.position + m.toNat + n.toNat) w.size) ∧
    (k.atEnd = c.atEnd ∧ k.value = c.value ∧
      (c.atEnd = false ↔
        ∃ h : c.position < w.codes.size, c.value = .ok w.codes[c.position]) ∧
      (c.atEnd = true ↔ c.value = .error (.unexpectedEnd w.size))) ∧
    (k.remaining? = some c.remaining ∧ ∀ p : UInt64,
      k.sliceFrom? p = some (c.sliceFrom p.toNat) ∧
      c.sliceFrom p.toNat ++ c.remaining = w.codes.toList.drop (min p.toNat c.position)) ∧
    ∀ s : WordSpan w,
      let j := min s.stop.toNat w.size
      let i := min s.start.toNat j
      s.slice? = some s.toSpan.slice ∧ s.toSpan.slice = (w.codes.toList.take j).drop i := by
  intro k c
  have hk : c.toWord = k := (Cursor.start w).toWord_along moves
  have hposition : c.position = min (Cursor.Move.countAll 0 moves) w.size :=
    Cursor.position_along (Nat.zero_min _).symm moves
  have hstep (m n : UInt64) : ((c.advance m.toNat).advance n.toNat).position =
      min (c.position + m.toNat + n.toNat) w.size := by
    rw [Cursor.advance_advance, Cursor.advance_position, Nat.add_assoc]
  rw [← hk]
  refine ⟨⟨c.toNat_toWord, ?_, hposition⟩, fun m n => ⟨?_, hstep m n⟩,
    ⟨c.atEnd_toWord, c.value_toWord, c.atEnd_eq_false_iff_value, c.atEnd_iff_value⟩,
    ⟨c.remaining?_toWord, fun p =>
      ⟨c.sliceFrom?_toWord p, c.sliceFrom_append_remaining p.toNat⟩⟩,
    fun s => ⟨s.slice?_eq, ?_⟩⟩
  · rw [c.toNat_toWord]
    exact c.le_size
  · rw [← c.toWord_advance, ← Cursor.toWord_advance, Cursor.toNat_toWord, c.toNat_toWord]
    exact hstep m n
  · rw [Span.slice, Input.slice_eq, ← List.drop_take]
    rfl

end Descent
