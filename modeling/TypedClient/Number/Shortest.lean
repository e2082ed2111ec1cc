import TypedClient.Number.Binary64

namespace TypedClient.Binary64

/-!
# Shortest decimals

A floating-point number is written with the fewest digits that read back as the same number.

* `Interval`: the real numbers that round to a given number.
* `shortestDigits`: the shortest decimal in the interval, the nearest one of that length.
* `display`: the decimal laid out, positional or with an exponent.
-/

/-- The real numbers that round to one number, as fractions over `den`: its value and the two ends,
    which belong to it exactly if the mantissa is even. -/
structure Interval where
  low : Nat
  value : Nat
  high : Nat
  den : Nat
  closed : Bool

/-- The interval of `mantissa · 2 ^ exponent`.  Below a power of two the neighbour is only half as
    far away as above it. -/
def Interval.of (mantissa : Nat) (exponent : Int) : Interval :=
  let below := if mantissa = twoTo 52 ∧ -1074 < exponent then 1 else 2
  let scale := exponent - 2
  let up := twoTo scale
  { low := (4 * mantissa - below) * up
    value := 4 * mantissa * up
    high := (4 * mantissa + 2) * up
    den := twoTo (-scale)
    closed := mantissa % 2 = 0 }

/-- Does `n · 10 ^ scale` lie in the interval? -/
def Interval.holds (i : Interval) (n : Nat) (scale : Int) : Bool :=
  let point := n * tenTo scale * i.den
  let factor := tenTo (-scale)
  if i.closed then i.low * factor ≤ point && point ≤ i.high * factor
  else i.low * factor < point && point < i.high * factor

/-- The decimal place of the value's first digit: the `d` with `10 ^ d ≤ value < 10 ^ (d + 1)`. -/
def Interval.firstPlace (i : Interval) : Int :=
  if i.den ≤ i.value then ((Nat.toDigits 10 (i.value / i.den)).length : Int) - 1
  else
    let quotient := (i.den + i.value - 1) / i.value
    Int.negOfNat (Nat.toDigits 10 (quotient - 1)).length

/-- The better of the two points next to the value on the grid of multiples of `10 ^ scale`: of two
    that lie in the interval the nearer one, and the even one if they are equally near. -/
def Interval.gridPoint? (i : Interval) (scale : Int) : Option Nat :=
  let num := i.value * tenTo (-scale)
  let den := i.den * tenTo scale
  let floor := num / den
  let rest := num % den
  let lower := 0 < floor && i.holds floor scale
  let upper := i.holds (floor + 1) scale
  if lower && upper then
    if 2 * rest < den then some floor
    else if den < 2 * rest then some (floor + 1)
    else if floor % 2 = 0 then some floor else some (floor + 1)
  else if lower then some floor
  else if upper then some (floor + 1)
  else none

/-- Tries one, two, … digits; seventeen are always enough. -/
def Interval.search (i : Interval) (place : Int) : (fuel count : Nat) → Nat × Int
  | 0, _ => (i.value / i.den, 0)
  | fuel + 1, count =>
    let scale := place - count + 1
    match i.gridPoint? scale with
    | some n => (n, scale)
    | none => i.search place fuel (count + 1)

/-- The fewest digits that read back as `mantissa · 2 ^ exponent`, and the power of ten of the last
    one. -/
def shortestDigits (mantissa : Nat) (exponent : Int) : Nat × Int :=
  let i := Interval.of mantissa exponent
  i.search i.firstPlace 17 1

/-- Digits without the zeros at their end, of which at most `fuel` are taken off. -/
def dropTrailingZeros : (fuel : Nat) → Nat × Int → Nat × Int
  | 0, p => p
  | fuel + 1, (n, scale) =>
    if n ≠ 0 ∧ n % 10 = 0 then dropTrailingZeros fuel (n / 10, scale + 1) else (n, scale)

/-- The text of `n · 10 ^ scale`: positional from a ten-thousandth up to sixteen digits before the
    point, and always with a digit after it; otherwise with an exponent of two digits at least. -/
def layout (n : Nat) (scale : Int) : String :=
  let (n, scale) := dropTrailingZeros 20 (n, scale)
  let digits := Nat.toDigits 10 n
  let place : Int := (digits.length : Int) + scale - 1
  if place < -4 ∨ 16 ≤ place then
    let fraction := digits.drop 1
    let power := Nat.toDigits 10 place.natAbs
    String.ofList (digits.take 1
      ++ (if fraction.isEmpty then [] else '.' :: fraction)
      ++ ['e', if place < 0 then '-' else '+']
      ++ (if power.length < 2 then '0' :: power else power))
  else if place < 0 then
    String.ofList ('0' :: '.' :: (List.replicate (-place - 1).toNat '0' ++ digits))
  else if 0 ≤ scale then
    String.ofList (digits ++ List.replicate scale.toNat '0' ++ ['.', '0'])
  else
    String.ofList (digits.take (place + 1).toNat ++ '.' :: digits.drop (place + 1).toNat)

/-- The text of a number: the fewest digits that read back as it. -/
def display : Binary64 → String
  | .nan => "nan"
  | .infinite negative => if negative then "-inf" else "inf"
  | .finite negative mantissa exponent =>
    let text :=
      if mantissa = 0 then "0.0"
      else
        let (n, scale) := shortestDigits mantissa exponent
        layout n scale
    if negative then "-" ++ text else text

end TypedClient.Binary64
