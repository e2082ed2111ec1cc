namespace TypedClient

/-!
# Calendar dates

Days of the calendar and moments of a day, as documents hold them.

* `Date`: a day; `Date.of?` builds only days that exist.
* `TimeOfDay`: a time without a day.
* `Moment`: a day with a time, perhaps with a distance from universal time.
* `Date.display`, `TimeOfDay.display`, `Moment.display`: the texts of all of them.
-/

/-- A day of the calendar. -/
structure Date where
  year : Nat
  month : Nat
  day : Nat
  deriving DecidableEq, Repr, Inhabited

/-- A time without a day. -/
structure TimeOfDay where
  hour : Nat
  minute : Nat
  second : Nat
  microsecond : Nat
  deriving DecidableEq, Repr, Inhabited

/-- A day with a time; `offset` is the distance from universal time in minutes, if it is known. -/
structure Moment where
  date : Date
  time : TimeOfDay
  offset : Option Int
  deriving DecidableEq, Repr, Inhabited

namespace Date

/-- Every fourth year is a leap year, of the full centuries every fourth. -/
def isLeap (year : Nat) : Bool :=
  year % 4 == 0 && (year % 100 != 0 || year % 400 == 0)

/-- The number of days of a month. -/
def monthLength (year month : Nat) : Nat :=
  if month = 2 then (if isLeap year then 29 else 28)
  else if [4, 6, 9, 11].contains month then 30
  else 31

/-- The day with these numbers, if there is one; years have one to four digits. -/
def of? (year month day : Nat) : Option Date :=
  if 1 ≤ year ∧ year ≤ 9999 ∧ 1 ≤ month ∧ month ≤ 12 ∧ 1 ≤ day ∧ day ≤ monthLength year month then
    some ⟨year, month, day⟩
  else none

/-- The number of days from the first day of the year one up to this day. -/
def ordinal (d : Date) : Nat :=
  let past := d.year - 1
  past * 365 + past / 4 - past / 100 + past / 400
    + (List.range (d.month - 1)).foldr (fun m days => monthLength d.year (m + 1) + days) d.day

end Date

/-- A number with at least `width` digits. -/
def padded (width n : Nat) : String :=
  let digits := Nat.toDigits 10 n
  String.ofList (List.replicate (width - digits.length) '0' ++ digits)

/-- Year, month and day with dashes between them. -/
def Date.display (d : Date) : String :=
  padded 4 d.year ++ "-" ++ padded 2 d.month ++ "-" ++ padded 2 d.day

namespace TimeOfDay

/-- The time with these numbers, if there is one. -/
def of? (hour minute second microsecond : Nat) : Option TimeOfDay :=
  if hour < 24 ∧ minute < 60 ∧ second < 60 ∧ microsecond < 1000000 then
    some ⟨hour, minute, second, microsecond⟩
  else none

/-- Hours, minutes and seconds with colons between them; microseconds stand there if the time has
    them. -/
def display (t : TimeOfDay) : String :=
  padded 2 t.hour ++ ":" ++ padded 2 t.minute ++ ":" ++ padded 2 t.second
    ++ (if t.microsecond = 0 then "" else "." ++ padded 6 t.microsecond)

end TimeOfDay

namespace Moment

/-- Is the distance from universal time less than a day?  Only then the moment has a text. -/
def isNear (m : Moment) : Bool :=
  match m.offset with
  | some minutes => minutes.natAbs < 24 * 60
  | none => true

/-- The distance from universal time as sign, hours and minutes. -/
def displayOffset (minutes : Int) : String :=
  (if minutes < 0 then "-" else "+") ++ padded 2 (minutes.natAbs / 60) ++ ":"
    ++ padded 2 (minutes.natAbs % 60)

/-- The day and the time with a blank between them, and the distance from universal time if the moment
    has one. -/
def display (m : Moment) : String :=
  m.date.display ++ " " ++ m.time.display
    ++ (match m.offset with
      | some minutes => displayOffset minutes
      | none => "")

/-- Two moments are the same if both have a distance from universal time and are the same instant, or
    if neither has one and they agree in every number. -/
def same (m n : Moment) : Bool :=
  match m.offset, n.offset with
  | none, none => m == n
  | some a, some b =>
    let minutes (m : Moment) (offset : Int) : Int :=
      ((m.date.ordinal * 24 + m.time.hour) * 60 + m.time.minute : Nat) - offset
    minutes m a == minutes n b && m.time.second == n.time.second
      && m.time.microsecond == n.time.microsecond
  | _, _ => false

end Moment

end TypedClient
