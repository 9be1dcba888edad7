/-!
# Rounding

Division to the nearest whole number, and the whole numbers that are held in
double precision, which have 53 significant bits. Halfway goes to the even
neighbour.
-/

namespace TypeFlow

/-- The whole number nearest to `num / den`; halfway goes to the even one. -/
def roundDiv (num den : Nat) : Nat :=
  let q := num / den
  let r := num % den
  if den < 2 * r || (den = 2 * r && q % 2 = 1) then q + 1 else q

def doubleBits : Nat := 53

/-- The number of 53 significant bits that is nearest to `n`. -/
def nearestDouble (n : Nat) : Nat :=
  let unit := Nat.pow 2 (n.log2 + 1 - doubleBits)
  roundDiv n unit * unit

/-- The least number that rounds to infinity: halfway between the largest
finite one, `2 ^ 1024 - 2 ^ 971`, and `2 ^ 1024`. -/
def overflowBound : Nat := Nat.pow 2 1024 - Nat.pow 2 970

end TypeFlow
