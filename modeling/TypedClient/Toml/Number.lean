import TypedClient.Document.Value
import TypedClient.Json
import TypedClient.Toml.Text

namespace TypedClient.Toml

/-!
# Numbers and dates in TOML

* `integer?`, `real?`: numbers without a sign.
* `isStrictNumber`: a number without needless zeros and underscores.
* `numberOf`: the number that a value denotes.
* `dateOf?`, `timeOf?`: dates and times.
-/

/-! ### Numbers -/

/-- An integer whose base is told by the letter behind a zero; a decimal one does not begin with a zero
    unless it is zero. -/
def integer? (cs : List Char) : Option Int :=
  let (negative, digits) := Numeral.splitSign (Numeral.trim cs)
  let magnitude :=
    match digits with
    | '0' :: 'x' :: _ | '0' :: 'X' :: _ => Numeral.int? 16 digits
    | '0' :: 'o' :: _ | '0' :: 'O' :: _ => Numeral.int? 8 digits
    | '0' :: 'b' :: _ | '0' :: 'B' :: _ => Numeral.int? 2 digits
    | '0' :: rest => if rest.all (· == '0') then some 0 else none
    | _ => if Value.maxDigits < digits.length then none else (Numeral.natOf? 10 digits).map (↑·)
  magnitude.map fun n => if negative then -n else n

/-- A number with a fraction or an exponent, or the name of infinity or of no number, in any case. -/
def real? (cs : List Char) : Option Binary64 :=
  Numeral.real? (cs.map Char.toLower)

/-- A number without its sign: one with a point or an exponent must begin with a digit and have one behind
    the point. -/
def unsignedNumber? (cs : List Char) : Option Value :=
  let lower := cs.map Char.toLower
  if cs.contains '.' || (!cs.contains 'x' && lower.contains 'e') then
    if Text.after? '.' cs = some [] ∨ !(cs.head?.elim false Char.isDigit) then none
    else (real? cs).map .float
  else if lower = "inf".toList ∨ lower = "nan".toList then (real? cs).map .float
  else (integer? cs).map .int

/-- A zero in front of the digits is needless, unless a mark follows it. -/
def hasNeedlessZero (marks : List Char) : List Char → Bool
  | '0' :: c :: _ => !marks.contains c
  | _ => false

/-- A number without needless zeros and underscores: an underscore stands neither at the ends nor beside a
    point or another one.  Behind a sign a zero may only stand before a point. -/
def isStrictNumber (value : List Char) : Bool :=
  let cs := Text.trim value
  let holds (passage : String) : Bool := Text.occursIn passage.toList cs
  let signed := cs.head? == some '+' || cs.head? == some '-'
  !cs.isEmpty && cs.head? != some '_' && cs.getLast? != some '_' && !holds "_." && !holds "._"
    && (cs.length == 1
      || (!hasNeedlessZero ['.', 'o', 'b', 'x'] cs && !(signed && hasNeedlessZero ['.'] (cs.drop 1))
        && !holds "__"))

/-- Zero less a number.  There is no negative zero. -/
def negated : Value → Value
  | .int n => .int (-n)
  | .float x => .float (if x.isZero then .zero false else x.neg)
  | v => v

/-- The number that a value denotes; `strict` tells that it is written without needless characters. -/
def numberOf (strict : Bool) (cs : List Char) : Except Failure Value :=
  let unsigned := (Numeral.splitSign cs).2.filter (· != '_')
  match strict, unsignedNumber? unsigned with
  | true, some v => .ok (if cs.head? = some '-' then negated v else v)
  | _, _ => unsuitable

/-! ### Dates and times -/

/-- The characters from the place `first` on, up to the place `last`. -/
def slice (first last : Nat) (cs : List Char) : List Char :=
  (cs.take last).drop first

/-- The natural number that characters spell. -/
def natural? (cs : List Char) : Option Nat :=
  match Numeral.int? 10 cs with
  | some (.ofNat n) => some n
  | _ => none

/-- A distance from universal time in minutes: a letter, or a sign with hours and minutes. -/
def offset? (cs : List Char) : Option Int := do
  if cs = ['Z'] then return 0
  let hours ← Numeral.int? 10 (slice 1 3 cs)
  let minutes ← Numeral.int? 10 (slice 4 6 cs)
  let total := hours * 60 + minutes
  return if cs.head? = some '-' then -total else total

/-- The fraction of a second behind the point of a time, and the distance from universal time that
    follows it. -/
def splitFraction (cs : List Char) : List Char × Option (List Char) :=
  let isSign (mark : Char) : Bool := cs.contains mark
  let cutAt (mark : Char) : List Char × Option (List Char) :=
    (Text.before mark cs, some (cs.dropWhile (· != mark)))
  if cs.getLast? = some 'Z' ∨ cs.getLast? = some 'z' then (cs.dropLast, some ['Z'])
  else if isSign '+' then cutAt '+'
  else if isSign '-' then cutAt '-'
  else (cs, none)

/-- Microseconds and the distance from universal time, from what stands behind the seconds; neither is
    known if they cannot be read. -/
def fine (cs : List Char) : Nat × Option Int :=
  match cs with
  | [] => (0, none)
  | '.' :: rest =>
    let (fraction, zone) := splitFraction rest
    match zone.map offset?, natural? fraction with
    | some none, _ => (0, none)
    | _, none => (0, none)
    | offset, some n =>
      let digits := fraction.length
      let micros :=
        if digits ≤ 6 then n * Nat.pow 10 (6 - digits) else n / Nat.pow 10 (digits - 6)
      (micros, offset.getD none)
  | _ => (0, offset? cs)

/-- A day, or a day with a time, whose parts stand at fixed places.  The distance from universal time can be
    any number. -/
def dateOf? (cs : List Char) : Option Value := do
  if !(cs.drop 1).contains '-' then none
  let date ← Date.of? (← natural? (slice 0 4 cs)) (← natural? (slice 5 7 cs)) (← natural? (slice 8 10 cs))
  if cs.length = 10 then return .date date
  let (microsecond, offset) := fine (cs.drop 19)
  let time ←
    TimeOfDay.of? (← natural? (slice 11 13 cs)) (← natural? (slice 14 16 cs))
      (← natural? (slice 17 19 cs)) microsecond
  return .moment ⟨date, time, offset⟩

/-- The numbers of a time of day at the front of a value: hours, minutes, seconds and microseconds.  What
    follows it does not count. -/
def timeNumbers? (cs : List Char) : Option (Nat × Nat × Nat × Nat) := do
  let (hour, _, rest) ← Numeral.digits? 2 2 cs
  let (minute, _, rest) ← Numeral.digits? 2 2 (← Text.past? ':' rest)
  let (second, _, rest) ← Numeral.digits? 2 2 (← Text.past? ':' rest)
  let microsecond := match (Text.past? '.' rest).bind (Numeral.digits? 3 6) with
    | some (n, _, _) => n
    | none => 0
  return (hour, minute, second, microsecond)

/-- Has a value the form of a time of day? -/
def isTime (cs : List Char) : Bool :=
  (timeNumbers? cs).isSome

/-- The number, date or time that a value denotes; `strict` tells that a number is written without needless
    characters. -/
def scalarOf (strict : Bool) (cs : List Char) : Except Failure Value :=
  match timeNumbers? cs with
  | some (hour, minute, second, microsecond) =>
    match TimeOfDay.of? hour minute second microsecond with
    | some t => .ok (.time t)
    | none => unsuitable
  | none =>
    match dateOf? cs with
    | some v => .ok v
    | none => numberOf strict cs

end TypedClient.Toml
