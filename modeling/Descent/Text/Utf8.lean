namespace Descent.Text.Utf8

/-- What a first byte announces: the bits it contributes, how many bytes follow, and the range
of the first of them. -/
structure Lead where
  bits : Nat
  count : Nat
  low : Nat := 0x80
  high : Nat := 0xBF

def lead? (b : Nat) : Option Lead :=
  if b < 0x80 then some { bits := b, count := 0 }
  else if b < 0xC2 then none
  else if b < 0xE0 then some { bits := b - 0xC0, count := 1 }
  else if b = 0xE0 then some { bits := 0, count := 2, low := 0xA0 }
  else if b = 0xED then some { bits := 0xD, count := 2, high := 0x9F }
  else if b < 0xF0 then some { bits := b - 0xE0, count := 2 }
  else if b = 0xF0 then some { bits := 0, count := 3, low := 0x90 }
  else if b < 0xF4 then some { bits := b - 0xF0, count := 3 }
  else if b = 0xF4 then some { bits := 4, count := 3, high := 0x8F }
  else none

/-- Take `count` following bytes, the first of them between `low` and `high`. The code point is
absent when they run out or one does not fit; what was not taken is returned. -/
def take (bits count low high : Nat) (rest : List Nat) : Option Nat × List Nat :=
  match count, rest with
  | 0, rest => (some bits, rest)
  | _ + 1, [] => (none, [])
  | n + 1, b :: more =>
    if low ≤ b ∧ b ≤ high then take (bits * 64 + (b - 0x80)) n 0x80 0xBF more
    else (none, b :: more)

theorem take_length_le (bits count low high : Nat) (rest : List Nat) :
    (take bits count low high rest).2.length ≤ rest.length := by
  fun_induction take bits count low high rest with
  | case1 => simp
  | case2 => simp
  | case3 _ _ _ _ _ _ _ ih => simp only [List.length_cons]; omega
  | case4 => simp

def replacement : Char := '\uFFFD'

/-- The first character of the bytes `b :: rest`, and the bytes after it. -/
def next (b : Nat) (rest : List Nat) : Char × List Nat :=
  match lead? b with
  | none => (replacement, rest)
  | some l =>
    match take l.bits l.count l.low l.high rest with
    | (some point, more) => (Char.ofNat point, more)
    | (none, more) => (replacement, more)

theorem next_length_le (b : Nat) (rest : List Nat) : (next b rest).2.length ≤ rest.length := by
  unfold next
  split
  · exact Nat.le_refl _
  · rename_i l _
    have h := take_length_le l.bits l.count l.low l.high rest
    split <;> simp_all

/-- Decode in front of `bytes`, after the characters of `read`, which are in reverse order. -/
def decodeAfter (read : List Char) (bytes : List Nat) : List Char :=
  match bytes with
  | [] => read.reverse
  | b :: rest => decodeAfter ((next b rest).1 :: read) (next b rest).2
termination_by bytes.length
decreasing_by
  have h := next_length_le b rest
  simp only [List.length_cons]
  omega

def decode (bytes : List Nat) : List Char := decodeAfter [] bytes

end Descent.Text.Utf8
