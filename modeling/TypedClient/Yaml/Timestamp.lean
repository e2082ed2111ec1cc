import TypedClient.Calendar
import TypedClient.Number.Numeral
import TypedClient.Text.Cut

namespace TypedClient.Yaml

/-!
# Dates and times as texts

A date is written with dashes, and a time of day can follow it.

* `TimeText`, `Timestamp`: the numbers of a time and of a date as they are written.
* `Timestamp.read?`: the numbers in a text.
* `Timestamp.value?`: the day or moment that they denote, if there is one.
-/

/-- The time of day as it is written; the fraction is kept in digits. -/
structure TimeText where
  hour : Nat
  minute : Nat
  second : Nat
  fraction : List Char
  /-- The distance from universal time in minutes. -/
  offset : Option Int
  deriving DecidableEq, Repr, Inhabited

/-- A date as it is written. -/
structure Timestamp where
  year : Nat
  month : Nat
  day : Nat
  /-- Month and day have two digits. -/
  padded : Bool
  time : Option TimeText
  deriving DecidableEq, Repr, Inhabited

namespace Timestamp

/-- The distance from universal time at the end of a text: nothing, the letter of universal time, or a
    sign with hours and perhaps minutes. -/
def offset? (cs : List Char) : Option (Option Int) :=
  if cs.isEmpty then some none
  else
    match cs.dropWhile fun c => c == ' ' || c == '\t' with
    | ['Z'] => some (some 0)
    | sign :: rest =>
      if sign = '+' ∨ sign = '-' then do
        let (hours, _, rest) ← Numeral.digits? 1 2 rest
        let minutes ← match rest with
          | [] => pure 0
          | ':' :: rest =>
            match Numeral.digits? 2 2 rest with
            | some (minutes, _, []) => pure minutes
            | _ => none
          | _ => none
        let total : Int := hours * 60 + minutes
        return some (if sign = '-' then -total else total)
      else none
    | [] => none

/-- The time of day behind a date, after what parts them. -/
def time? (cs : List Char) : Option TimeText := do
  let (hour, _, rest) ← Numeral.digits? 1 2 cs
  let (minute, _, rest) ← Numeral.digits? 2 2 (← Text.past? ':' rest)
  let (second, _, rest) ← Numeral.digits? 2 2 (← Text.past? ':' rest)
  let (fraction, rest) := match rest with
    | '.' :: rest => (rest.takeWhile Char.isDigit, rest.dropWhile Char.isDigit)
    | _ => ([], rest)
  return ⟨hour, minute, second, fraction, ← offset? rest⟩

/-- What stands between a date and a time: a letter, or blanks. -/
def pastSeparator? : List Char → Option (List Char)
  | c :: rest =>
    if c = 'T' ∨ c = 't' then some rest
    else if c = ' ' ∨ c = '\t' then some (rest.dropWhile fun c => c == ' ' || c == '\t')
    else none
  | [] => none

/-- The numbers in a text. -/
def read? (cs : List Char) : Option Timestamp := do
  let (year, _, rest) ← Numeral.digits? 4 4 cs
  let (month, monthWidth, rest) ← Numeral.digits? 1 2 (← Text.past? '-' rest)
  let (day, dayWidth, rest) ← Numeral.digits? 1 2 (← Text.past? '-' rest)
  let padded := monthWidth == 2 && dayWidth == 2
  if rest.isEmpty then return ⟨year, month, day, padded, none⟩
  return ⟨year, month, day, padded, some (← time? (← pastSeparator? rest))⟩

/-- The numbers in a text that is a date by its form: a date without a time is one only with two digits
    for month and day. -/
def ofForm? (cs : List Char) : Option Timestamp :=
  (read? cs).filter fun t => t.padded || t.time.isSome

/-- The microseconds of a fraction of a second; further digits are dropped. -/
def microseconds (fraction : List Char) : Nat :=
  let digits := (fraction ++ List.replicate 6 '0').take 6
  Numeral.ofDigits (digits.map fun c => c.toNat - '0'.toNat)

/-- The day or the moment that the numbers denote, if there is one. -/
def value? (t : Timestamp) : Option (Date ⊕ Moment) := do
  let date ← Date.of? t.year t.month t.day
  match t.time with
  | none => return .inl date
  | some t =>
    let time ← TimeOfDay.of? t.hour t.minute t.second (microseconds t.fraction)
    let moment : Moment := ⟨date, time, t.offset⟩
    if moment.isNear then return .inr moment else none

end Timestamp

end TypedClient.Yaml
