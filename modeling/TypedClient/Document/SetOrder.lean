import TypedClient.Document.Value

namespace TypedClient.SetOrder

/-!
# The order of the members of a set

A set of numbers yields them in an order that their values and the order of writing fix: every number has
a row of places in a table, takes the first free place of its row, and the table is read from the front.
Members of other kinds have no such order; a set that holds one keeps the order of writing.

* `residue?`: what decides about the places of a number; equal numbers agree on it.
* `places`: the row of places of a number.
* `ordered`: the members of a set in the order in which it yields them.
-/

/-- Numbers that have the same remainder by this prime begin at the same place. -/
def modulus : Nat := Binary64.twoTo 61 - 1

/-- A remainder with the sign of its number.  Minus one stands for no remainder. -/
def signed (negative : Bool) (remainder : Nat) : Int :=
  if !negative then remainder else if remainder = 1 then -2 else -remainder

/-- What decides about the places of a number.  Doubling is a rotation of remainders, so a power of two
    counts by its remainder by sixty-one. -/
def residue? : Value → Option Int
  | .bool b => some (if b then 1 else 0)
  | .int n => some (signed (n < 0) (n.natAbs % modulus))
  | .float (.finite negative mantissa exponent) =>
    some (signed negative (mantissa * Binary64.twoTo (exponent % 61) % modulus))
  | .float (.infinite negative) => some (signed negative 314159)
  | _ => none

/-- The least doubling of eight places, at most `fuel` times, that makes more than `count`. -/
def enlarged (count : Nat) : (fuel places : Nat) → Nat
  | 0, places => places
  | fuel + 1, places => if places ≤ count then enlarged count fuel (2 * places) else places

/-- The number of places for so many members: eight, or from five members on more than twice as
    many. -/
def placesFor (members : Nat) : Nat :=
  if members < 5 then 8 else enlarged (2 * members) members 8

/-- A place, and the nine after it if the table does not end before them. -/
def run (size place : Nat) : List Nat :=
  if place + 9 < size then List.range' place 10 else [place]

/-- The row of places from `place` on.  Each jump takes five more bits of the residue into account, until
    it has none left. -/
def places (size : Nat) : (jumps residue place : Nat) → List Nat
  | 0, _, place => run size place
  | jumps + 1, residue, place =>
    let residue := residue / 32
    run size place ++ places size jumps residue ((place * 5 + 1 + residue) % size)

/-- Puts a member at the first free place of its row.  After the bits of the residue, which are sixty-four,
    the jumps come to every place. -/
def put (table : Array (Option Value)) (member : Value) (residue : Int) : Array (Option Value) :=
  let size := table.size
  let bits := (residue % Binary64.twoTo 64).toNat
  let row := places size (size + 13) bits (bits % size)
  match row.find? fun place => (table[place]?.getD none).isNone with
  | some place => table.setIfInBounds place (some member)
  | none => table

/-- The members of a set in the order in which it yields them. -/
def ordered (members : List Value) : List Value :=
  match members.mapM fun v => (residue? v).map fun r => (v, r) with
  | none => members
  | some numbers =>
    let table := Array.replicate (placesFor numbers.length) none
    (numbers.foldl (fun table (v, r) => put table v r) table).toList.filterMap id

end TypedClient.SetOrder
