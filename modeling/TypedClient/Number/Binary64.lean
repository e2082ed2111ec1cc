namespace TypedClient

/-!
# Binary floating point

Numbers with a fraction are kept as a sign, a natural mantissa and a power of two, so that all
arithmetic on them is exact natural arithmetic followed by one rounding.

* `Binary64`: a double-precision number.
* `Binary64.ofRatio`: the number nearest to a fraction, ties going to the even mantissa.
* `Binary64.add`, `Binary64.mul`: sum and product, rounded once.
* `Binary64.toInt?`: the integer that a number equals.
-/

/-- A double-precision number.  A finite one is `mantissa · 2 ^ exponent`, with a mantissa below
    `2 ^ 53` and the least exponent that allows it. -/
inductive Binary64 where
  | nan
  | infinite (negative : Bool)
  | finite (negative : Bool) (mantissa : Nat) (exponent : Int)
  deriving DecidableEq, Repr, Inhabited

namespace Binary64

/-- Two to the power of `n`, and one if `n` is negative. -/
def twoTo (n : Int) : Nat :=
  Nat.pow 2 n.toNat

/-- Ten to the power of `n`, and one if `n` is negative. -/
def tenTo (n : Int) : Nat :=
  Nat.pow 10 n.toNat

/-- Zero with a sign. -/
def zero (negative : Bool) : Binary64 :=
  .finite negative 0 (-1074)

/-- The number nearest to the positive fraction `num / den`.  The exponent is the one that gives the
    mantissa fifty-three bits, but not below the least one; a mantissa that rounds up to `2 ^ 53`
    moves to the next exponent. -/
def ofRatio (negative : Bool) (num den : Nat) : Binary64 :=
  if num = 0 then zero negative
  else
    let distance : Int := (Nat.log2 num : Int) - Nat.log2 den
    let reaches := den * twoTo distance ≤ num * twoTo (-distance)
    let exponent : Int := max (-1074) (if reaches then distance - 52 else distance - 53)
    let n := num * twoTo (-exponent)
    let d := den * twoTo exponent
    let floor := n / d
    let rest := n % d
    let mantissa :=
      if 2 * rest < d then floor
      else if d < 2 * rest then floor + 1
      else if floor % 2 = 0 then floor else floor + 1
    let (mantissa, exponent) :=
      if mantissa = twoTo 53 then (twoTo 52, exponent + 1) else (mantissa, exponent)
    if 971 < exponent then .infinite negative else .finite negative mantissa exponent

/-- The number nearest to `digits · 10 ^ scale`.  Far outside the range of finite numbers the power
    of ten is not computed. -/
def ofDecimal (negative : Bool) (digits : Nat) (scale : Int) : Binary64 :=
  let magnitude : Int := (Nat.toDigits 10 digits).length + scale
  if digits = 0 then zero negative
  else if 400 < magnitude then .infinite negative
  else if magnitude < -400 then zero negative
  else ofRatio negative (digits * tenTo scale) (tenTo (-scale))

/-- An integer as the nearest number. -/
def ofInt (n : Int) : Binary64 :=
  ofRatio (n < 0) n.natAbs 1

/-- The number with the opposite sign. -/
def neg : Binary64 → Binary64
  | .nan => .nan
  | .infinite negative => .infinite !negative
  | .finite negative mantissa exponent => .finite (!negative) mantissa exponent

/-- Is the number zero, of either sign? -/
def isZero : Binary64 → Bool
  | .finite _ 0 _ => true
  | _ => false

/-- A signed integer times a power of two, rounded. -/
def ofScaled (n : Int) (exponent : Int) : Binary64 :=
  ofRatio (n < 0) (n.natAbs * twoTo exponent) (twoTo (-exponent))

/-- The signed mantissa. -/
def signed (negative : Bool) (mantissa : Nat) : Int :=
  if negative then -(mantissa : Int) else mantissa

/-- The sum, rounded once.  A sum of zeros is negative only if both are. -/
def add : Binary64 → Binary64 → Binary64
  | .nan, _ | _, .nan => .nan
  | .infinite s, .infinite t => if s = t then .infinite s else .nan
  | .infinite s, _ | _, .infinite s => .infinite s
  | .finite s m e, .finite t n f =>
    let low := min e f
    let total := signed s (m * twoTo (e - low)) + signed t (n * twoTo (f - low))
    if total = 0 then zero (s && t) else ofScaled total low

/-- The product, rounded once. -/
def mul : Binary64 → Binary64 → Binary64
  | .nan, _ | _, .nan => .nan
  | .infinite s, .infinite t => .infinite (s != t)
  | .infinite s, .finite t n _ | .finite t n _, .infinite s =>
    if n = 0 then .nan else .infinite (s != t)
  | .finite s m e, .finite t n f =>
    if m * n = 0 then zero (s != t) else ofScaled (signed (s != t) (m * n)) (e + f)

/-- The integer that the number equals, if it equals one. -/
def toInt? : Binary64 → Option Int
  | .finite negative mantissa exponent =>
    let unit := twoTo (-exponent)
    if mantissa % unit = 0 then some (signed negative (mantissa / unit * twoTo exponent)) else none
  | _ => none

/-- Equality of values as keys: the two zeros are equal, and there is only one number that is none. -/
def sameValue (x y : Binary64) : Bool :=
  (x.isZero && y.isZero) || x == y

end Binary64

end TypedClient
