import ShapeSql.Value.Basic

namespace ShapeSql.Double

/-- The significand and the exponent of the magnitude, for a finite double. -/
def parts (x : Double) : Nat × Int :=
  let exponent : Nat := x.magnitude.toNat / Nat.pow 2 52
  let fraction : Nat := x.magnitude.toNat % Nat.pow 2 52
  if exponent = 0 then (fraction, -1074) else (fraction + Nat.pow 2 52, (exponent : Int) - 1075)

def isNegative (x : Double) : Bool := x.bits.toNat ≥ Nat.pow 2 63

def isInfinite (x : Double) : Bool := x.magnitude.toNat == 0x7FF0000000000000

def isFinite (x : Double) : Bool := x.magnitude.toNat < 0x7FF0000000000000

/-- The double of the other sign. -/
def neg (x : Double) : Double := ⟨x.bits ^^^ 0x8000000000000000⟩

/-- The quotient rounded to an integer, a half to the even neighbour. -/
def roundHalfEven (num den : Nat) : Nat :=
  let low := num / den
  let twice := 2 * (num % den)
  if twice > den || (twice == den && low % 2 == 1) then low + 1 else low

/-- The nonnegative quotient `num / (den * 2 ^ e)` as numerator and denominator. -/
def scaled (num den : Nat) (e : Int) : Nat × Nat :=
  if e ≥ 0 then (num, den * Nat.pow 2 e.toNat) else (num * Nat.pow 2 (-e).toNat, den)

/-- The exponent at which the quotient has a significand of 53 bits, or the least exponent. -/
def exponentOf (num den : Nat) : Int :=
  let guess : Int := (num.log2 : Int) - den.log2 - 52
  let (n, d) := scaled num den guess
  max (-1074) (if n < d * Nat.pow 2 52 then guess - 1 else guess)

/-- The double nearest to a nonnegative quotient, infinity beyond the largest. -/
def ofRatio (num den : Nat) : Double :=
  if num = 0 then ⟨0⟩
  else
    let e := exponentOf num den
    let (n, d) := scaled num den e
    let bits := (e + 1074).toNat * Nat.pow 2 52 + roundHalfEven n d
    ⟨UInt64.ofNat (min bits 0x7FF0000000000000)⟩

/-- The magnitude of a finite double as a quotient. -/
def ratio (x : Double) : Nat × Nat :=
  let (m, q) := x.parts
  if q ≥ 0 then (m * Nat.pow 2 q.toNat, 1) else (m, Nat.pow 2 (-q).toNat)

/-- The product of the magnitudes of two finite doubles, rounded once. -/
def mulMagnitude (x y : Double) : Double :=
  ofRatio (x.ratio.1 * y.ratio.1) (x.ratio.2 * y.ratio.2)

/-- The quotient of the magnitudes of two finite doubles, rounded once. -/
def divMagnitude (x y : Double) : Double :=
  ofRatio (x.ratio.1 * y.ratio.2) (x.ratio.2 * y.ratio.1)

end ShapeSql.Double
