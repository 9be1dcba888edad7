import TypeFlow.Rounding

/-!
# Decimal text of floating-point numbers

The exact value of a float is a whole number times a power of two; it is
rounded to a number of decimal places, and a value halfway between two goes to
the even one.
-/

namespace TypeFlow

def placesText (places n : Nat) : String :=
  let whole := toString (n / Nat.pow 10 places)
  if places = 0 then whole
  else
    let fraction := toString (n % Nat.pow 10 places)
    whole ++ "." ++ "".pushn '0' (places - fraction.length) ++ fraction

/-- The significand and the power of two of a float that is not negative. -/
def floatParts (x : Float) : Nat × Int :=
  let bits : Nat := x.toBits.toNat
  let exponent : Nat := bits / Nat.pow 2 52 % Nat.pow 2 11
  let fraction : Nat := bits % Nat.pow 2 52
  if exponent = 0 then (fraction, -1074) else (Nat.pow 2 52 + fraction, (exponent : Int) - 1075)

/-- The text of a float that is not negative, with a fixed number of places. -/
def fixedText (places : Nat) (x : Float) : String :=
  let (m, e) := floatParts x
  let m := m * Nat.pow 10 places
  let n := if e < 0 then roundDiv m (Nat.pow 2 e.natAbs) else m * Nat.pow 2 e.toNat
  placesText places n

end TypeFlow
