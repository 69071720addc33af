import ShapeSql.Decimal.Nearest

namespace ShapeSql.Double

/-- A decimal: its digits without trailing zeros and the power of ten of the last one. -/
structure Decimal where
  digits : Nat
  exponent : Int
  deriving Repr

/-- Whether a decimal `c * 10 ^ k` rounds to the positive finite double. All numbers are compared
after multiplying by the same powers of two and ten. -/
def readsBack (x : Double) (c : Nat) (k : Int) : Bool :=
  let (m, q) := x.parts
  let below := if m = Nat.pow 2 52 ∧ q > -1074 then 1 else 2
  let tens := if k ≥ 0 then Nat.pow 10 k.toNat else 1
  let tenths := if k ≥ 0 then 1 else Nat.pow 10 (-k).toNat
  let twos := if q - 2 ≥ 0 then Nat.pow 2 (q - 2).toNat else 1
  let halves := if q - 2 ≥ 0 then 1 else Nat.pow 2 (2 - q).toNat
  let value := c * tens * halves
  let low := (4 * m - below) * twos * tenths
  let high := (4 * m + 2) * twos * tenths
  if m % 2 == 0 then low ≤ value && value ≤ high else low < value && value < high

/-- The floor of the magnitude divided by `10 ^ k`, and twice the remainder compared to one. -/
def gridBelow (x : Double) (k : Int) : Nat × Ordering :=
  let (num, den) := x.ratio
  let num := if k ≥ 0 then num else num * Nat.pow 10 (-k).toNat
  let den := if k ≥ 0 then den * Nat.pow 10 k.toNat else den
  (num / den, compare (2 * (num % den)) den)

/-- The decimal on the grid of `10 ^ k` that reads back as the double, the nearer one of two. -/
def onGrid? (x : Double) (k : Int) : Option Decimal :=
  let (low, half) := x.gridBelow k
  match x.readsBack low k, x.readsBack (low + 1) k with
  | true, true =>
    some ⟨if half == .gt || (half == .eq && low % 2 == 1) then low + 1 else low, k⟩
  | true, false => some ⟨low, k⟩
  | false, true => some ⟨low + 1, k⟩
  | false, false => none

/-- The number of decimal digits. -/
def digitCount (n : Nat) : Nat := (Nat.toDigits 10 n).length

/-- The power of ten of the first digit of a positive finite double. -/
def leadingExponent (x : Double) : Int :=
  let (num, den) := x.ratio
  let guess : Int := (digitCount num : Int) - digitCount den
  let (low, _) := x.gridBelow guess
  if low ≥ 1 then guess else guess - 1

/-- Trailing zeros moved into the exponent. -/
def stripZeros : Nat → Nat → Int → Decimal
  | 0, c, k => ⟨c, k⟩
  | fuel + 1, c, k => if c % 10 == 0 && c != 0 then stripZeros fuel (c / 10) (k + 1) else ⟨c, k⟩

/-- The shortest decimal of a positive finite double; seventeen digits always suffice. -/
def shortest (x : Double) : Decimal :=
  let lead := x.leadingExponent
  match (List.range 17).findSome? fun (n : Nat) => x.onGrid? (lead - n) with
  | some d => stripZeros 20 d.digits d.exponent
  | none => ⟨0, 0⟩

end ShapeSql.Double
