namespace Descent.Position

def last : Nat := 0xFFFFFFFFFFFFFFFF

def start : Nat := 0

def advance (p n : Nat) : Nat := min (p + n) last

def successor (p : Nat) : Nat := advance p 1

def text (p : Nat) : String := "offset " ++ toString p

theorem advance_of_le {p n : Nat} (h : p + n ≤ last) : advance p n = p + n :=
  Nat.min_eq_left h

theorem advance_advance (p m n : Nat) : advance (advance p m) n = advance p (m + n) := by
  simp only [advance]
  omega

end Descent.Position
