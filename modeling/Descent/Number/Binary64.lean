namespace Descent.Binary64

/-- A quotient rounded to the nearest integer, a half to the even one. -/
def roundDiv (num den : Nat) : Nat :=
  let q := num / den
  let r := num % den
  if 2 * r < den then q else if den < 2 * r then q + 1 else q + q % 2

def infinity : Nat := 0x7FF0000000000000

def signBit : Nat := 0x8000000000000000

def powLe (k : Int) (num den : Nat) : Bool :=
  if 0 ≤ k then den <<< k.toNat ≤ num else den ≤ num <<< (-k).toNat

/-- The greatest `k` with `2 ^ k ≤ num / den`. -/
def log2Div (num den : Nat) : Int :=
  let k : Int := (Nat.log2 num : Int) - Nat.log2 den
  if powLe k num den then k else k - 1

/-- The bits of the number nearest to `num / den`. The last of its 53 bits has weight `2 ^ k`,
and no bit has a weight below `2 ^ (-1074)`. -/
def ofFraction (num den : Nat) : Nat :=
  let k := max (log2Div num den - 52) (-1074)
  let significand :=
    if 0 ≤ k then roundDiv num (den <<< k.toNat) else roundDiv (num <<< (-k).toNat) den
  min (((k + 1074).toNat <<< 52) + significand) infinity

/-- The bits of the number nearest to `m * 10 ^ e`, where `m` has at most `digits` digits. -/
def ofDecimal (m digits : Nat) (e : Int) : Nat :=
  if m = 0 then 0
  else if 310 < e then infinity
  else if digits + e < -330 then 0
  else if 0 ≤ e then ofFraction (m * Nat.pow 10 e.toNat) 1
  else ofFraction m (Nat.pow 10 (-e).toNat)

end Descent.Binary64
