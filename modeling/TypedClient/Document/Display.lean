import TypedClient.Document.Value
import TypedClient.Number.Shortest
import TypedClient.Text.Printable
import TypedClient.Text.Surrogate

namespace TypedClient

/-!
# Texts of document values

Error messages quote values of the document, and values that are not texts are used as texts where the
generated client needs one.

* `quoted`: a text in quotes, with everything escaped that cannot be seen.
* `Value.inspect`: a value spelled out, with its texts in quotes.
* `Value.display`: a value as a text; a text stands for itself.
* `Value.hasText`: some values are too large to have a text.
-/

/-- A number in lower-case hexadecimal digits, `width` of them at least. -/
def hex (width n : Nat) : List Char :=
  let digits := Nat.toDigits 16 n
  List.replicate (width - digits.length) '0' ++ digits

/-- The character or half with a number between quotes of the given kind. -/
def quotedNumber (quote : Char) (n : Nat) : List Char :=
  let c := Char.ofNat n
  if Text.isHalfNumber n then '\\' :: 'u' :: hex 4 n
  else if c = quote ∨ c = '\\' then ['\\', c]
  else if c = '\t' then ['\\', 't']
  else if c = '\n' then ['\\', 'n']
  else if c = '\r' then ['\\', 'r']
  else if Text.isPrintable c then [c]
  else if n < 0x100 then '\\' :: 'x' :: hex 2 n
  else if n < 0x10000 then '\\' :: 'u' :: hex 4 n
  else '\\' :: 'U' :: hex 8 n

/-- The quote for a text: single, unless only a double one spares an escape. -/
def quoteFor (cs : List Char) : Char :=
  if cs.contains '\'' && !cs.contains '"' then '"' else '\''

/-- A text in quotes. -/
def quoted (s : String) : String :=
  let quote := quoteFor s.toList
  String.ofList (quote :: ((Text.numbers s.toList).flatMap (quotedNumber quote) ++ [quote]))

/-- Octets in quotes, those outside of printable ASCII by number. -/
def quotedOctets (octets : List UInt8) : String :=
  let cs := octets.map fun b => Char.ofNat b.toNat
  let quote := quoteFor cs
  let octet (c : Char) : List Char :=
    if c = quote ∨ c = '\\' ∨ c = '\t' ∨ c = '\n' ∨ c = '\r' then quotedNumber quote c.toNat
    else if 0x20 ≤ c.toNat ∧ c.toNat < 0x7f then [c]
    else '\\' :: 'x' :: hex 2 c.toNat
  String.ofList ('b' :: quote :: (cs.flatMap octet ++ [quote]))

/-- Texts with a comma between neighbours. -/
def commaSeparated (texts : List String) : String :=
  String.intercalate ", " texts

/-- A day spelled out as a construction. -/
def Date.inspect (d : Date) : String :=
  "datetime.date(" ++ commaSeparated [toString d.year, toString d.month, toString d.day] ++ ")"

/-- A distance from universal time spelled out as a construction: whole days and the seconds left over,
    which are never negative. -/
def inspectOffset (minutes : Int) : String :=
  if minutes = 0 then "datetime.timezone.utc"
  else
    let seconds := minutes * 60
    let days := Int.fdiv seconds 86400
    let rest := Int.fmod seconds 86400
    "datetime.timezone(datetime.timedelta("
      ++ (if days = 0 then "" else "days=" ++ toString days ++ ", ")
      ++ "seconds=" ++ toString rest ++ "))"

/-- The numbers of a time; seconds and microseconds are left out from the end while they are zero. -/
def TimeOfDay.numbers (t : TimeOfDay) : List Nat :=
  [t.hour, t.minute]
    ++ (if t.microsecond ≠ 0 then [t.second, t.microsecond]
      else if t.second ≠ 0 then [t.second] else [])

/-- A time spelled out as a construction. -/
def TimeOfDay.inspect (t : TimeOfDay) : String :=
  "datetime.time(" ++ commaSeparated (t.numbers.map toString) ++ ")"

/-- A moment spelled out as a construction. -/
def Moment.inspect (m : Moment) : String :=
  "datetime.datetime("
    ++ commaSeparated
      (([m.date.year, m.date.month, m.date.day] ++ m.time.numbers).map toString
        ++ (match m.offset with
          | some minutes => ["tzinfo=" ++ inspectOffset minutes]
          | none => []))
    ++ ")"

namespace Value

/-- What stands for a collection inside of itself. -/
def inspectAgain : Value → String
  | .map _ => "\x7b...\x7d"
  | .tuple _ => "(...)"
  | _ => "[...]"

mutual

/-- A value that stands in `depth` collections spelled out, with its texts in quotes.  A collection inside
    of itself is not spelled out again. -/
def inspectIn (depth : Nat) : Value → String
  | .null => "None"
  | .bool b => if b then "True" else "False"
  | .int n => toString n
  | .float x => x.display
  | .text s => quoted s
  | .bytes octets => quotedOctets octets
  | .date d => d.inspect
  | .time t => t.inspect
  | .moment m => m.inspect
  | .list items => "[" ++ commaSeparated (inspectAll (depth + 1) items) ++ "]"
  | .tuple [item] => "(" ++ inspectIn (depth + 1) item ++ ",)"
  | .tuple items => "(" ++ commaSeparated (inspectAll (depth + 1) items) ++ ")"
  | .set [] => "set()"
  | .set items => "\x7b" ++ commaSeparated (inspectAll (depth + 1) items) ++ "\x7d"
  | .map entries => "\x7b" ++ commaSeparated (inspectEntries (depth + 1) entries) ++ "\x7d"
  | .again levels content =>
    if levels ≤ depth then inspectAgain content.bare else inspectIn depth content
  | .endless => "..."

/-- The items of a collection spelled out. -/
def inspectAll (depth : Nat) : List Value → List String
  | [] => []
  | x :: xs => inspectIn depth x :: inspectAll depth xs

/-- The entries of a map spelled out. -/
def inspectEntries (depth : Nat) : List (Value × Value) → List String
  | [] => []
  | (k, v) :: rest => (inspectIn depth k ++ ": " ++ inspectIn depth v) :: inspectEntries depth rest

end

/-- A value spelled out, with its texts in quotes. -/
def inspect (v : Value) : String :=
  v.inspectIn 0

/-- A value as a text. -/
def display : Value → String
  | .text s => s
  | .date d => d.display
  | .time t => t.display
  | .moment m => m.display
  | v => v.inspect

/-! ### Values without a text -/

/-- A number with more digits has no text. -/
def maxDigits : Nat := 4300

mutual

/-- Has a value that stands in `depth` collections a text?  Very large integers have none, nor have
    moments at a distance of a day or more from universal time. -/
def hasTextIn (depth : Nat) : Value → Bool
  | .int n => n.natAbs < Nat.pow 10 maxDigits
  | .moment m => m.isNear
  | .list items | .tuple items | .set items => allHaveText (depth + 1) items
  | .map entries => entriesHaveText (depth + 1) entries
  | .again levels content => levels ≤ depth || hasTextIn depth content
  | _ => true

/-- Have all items of a collection a text? -/
def allHaveText (depth : Nat) : List Value → Bool
  | [] => true
  | x :: xs => hasTextIn depth x && allHaveText depth xs

/-- Have all keys and values of a map a text? -/
def entriesHaveText (depth : Nat) : List (Value × Value) → Bool
  | [] => true
  | (k, v) :: rest => hasTextIn depth k && hasTextIn depth v && entriesHaveText depth rest

end

/-- Has the value a text? -/
def hasText (v : Value) : Bool :=
  v.hasTextIn 0

end Value

end TypedClient
