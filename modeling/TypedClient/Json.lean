import TypedClient.Failure
import TypedClient.Number.Numeral
import TypedClient.Text.Surrogate

namespace TypedClient.Json

/-!
# JSON documents

Reads the text of a JSON document.  Integers have any size and stay apart from numbers with a fraction
or an exponent, and the numbers that are none, `NaN` and `Infinity`, may be written too.

* `readString`: a text after its opening quote.
* `readNumber?`: a number at the front of a text.
* `readValue`: a value at the front of a text.
* `parse`: the value that a whole text spells.

Every reader gives what it read and the characters after it.
-/

/-- The text is not JSON. -/
def invalid {α : Type} : Except Failure α :=
  .error (.access .invalidJson)

/-- The characters that may stand between the parts of a value. -/
def isBlank (c : Char) : Bool :=
  c == ' ' || c == '\t' || c == '\n' || c == '\r'

/-- The characters after the blanks in front. -/
def skipBlanks (cs : List Char) : List Char :=
  cs.dropWhile isBlank

/-! ### Texts -/

/-- The value of a hexadecimal digit of ASCII. -/
def hexValue? (c : Char) : Option Nat :=
  if c.toNat < 0x80 then Text.radixValue? 16 c else none

/-- The number of a UTF-16 unit written with four hexadecimal digits. -/
def readUnit? : List Char → Option (Nat × List Char)
  | a :: b :: c :: d :: rest => do
    let digits ← [a, b, c, d].mapM hexValue?
    return (digits.foldl (fun n digit => n * 16 + digit) 0, rest)
  | _ => none

/-- The number of the character that two UTF-16 units denote together. -/
def numberOfUnits (high low : Nat) : Nat :=
  0x10000 + (high - 0xD800) * 0x400 + (low - 0xDC00)

/-- The text that an escape with UTF-16 units denotes, after the letter of the escape.  A unit that is half of
    a character, without its other half, stands for itself. -/
def readUnitEscape? (cs : List Char) : Option (List Char × List Char) := do
  let (unit, rest) ← readUnit? cs
  let alone := (Text.ofNumber unit, rest)
  if 0xD800 ≤ unit ∧ unit < 0xDC00 then
    match rest with
    | '\\' :: 'u' :: more =>
      match readUnit? more with
      | some (low, tail) =>
        if 0xDC00 ≤ low ∧ low < 0xE000 then return (Text.ofNumber (numberOfUnits unit low), tail)
        else return alone
      | none => return alone
    | _ => return alone
  else return alone

/-- The character that an escape with one letter denotes. -/
def simpleEscape? : Char → Option Char
  | '"' => some '"'
  | '\\' => some '\\'
  | '/' => some '/'
  | 'b' => some '\x08'
  | 'f' => some '\x0c'
  | 'n' => some '\n'
  | 'r' => some '\r'
  | 't' => some '\t'
  | _ => none

/-- The text that an escape denotes, after its backslash. -/
def readEscape? : List Char → Option (List Char × List Char)
  | 'u' :: rest => readUnitEscape? rest
  | c :: rest => (simpleEscape? c).map fun d => ([d], rest)
  | [] => none

/-- A text up to its closing quote.  Controls must be escaped.  Every step takes a character off, so
    the length of the text is enough for `fuel`. -/
def readString : (fuel : Nat) → (text : List Char) → List Char → Except Failure (String × List Char)
  | 0, _, _ => invalid
  | _, _, [] => invalid
  | fuel + 1, text, c :: rest =>
    if c = '"' then .ok (String.ofList text.reverse, rest)
    else if c = '\\' then
      match readEscape? rest with
      | some (cs, rest) => readString fuel (cs.reverse ++ text) rest
      | none => invalid
    else if c.toNat < 0x20 then invalid
    else readString fuel (c :: text) rest

/-! ### Numbers -/

/-- Digits at the front, and what follows them. -/
def digits (cs : List Char) : List Char × List Char :=
  (cs.takeWhile Char.isDigit, cs.dropWhile Char.isDigit)

/-- The whole part of a number: a zero, or digits that do not begin with one. -/
def readWhole? : List Char → Option (List Char × List Char)
  | '0' :: rest => some (['0'], rest)
  | c :: rest => if c.isDigit then some (digits (c :: rest)) else none
  | [] => none

/-- The fraction of a number: a point and digits, or nothing. -/
def readFraction (cs : List Char) : List Char × List Char :=
  match cs with
  | '.' :: c :: rest => if c.isDigit then digits (c :: rest) else ([], cs)
  | _ => ([], cs)

/-- The exponent of a number: a letter, perhaps a sign, and digits, or nothing. -/
def readExponent (cs : List Char) : Option Int × List Char :=
  match cs with
  | c :: rest =>
    if c = 'e' ∨ c = 'E' then
      let (negative, tail) := Numeral.splitSign rest
      match digits tail with
      | ([], _) => (none, cs)
      | (power, after) =>
        let n : Int := (Numeral.natOf? 10 power).getD 0
        (some (if negative then -n else n), after)
    else (none, cs)
  | [] => (none, cs)

/-- The number that the parts of a numeral denote. -/
def numberOf (negative : Bool) (whole fraction : List Char) (exponent : Option Int) :
    Except Failure Value :=
  let n (cs : List Char) : Nat := (Numeral.natOf? 10 cs).getD 0
  if fraction.isEmpty && exponent.isNone then
    if Value.maxDigits < whole.length then .error (.access .invalidScalar)
    else .ok (.int (if negative then -(n whole : Int) else n whole))
  else
    .ok (.float
      (Binary64.ofDecimal negative (n (whole ++ fraction)) (exponent.getD 0 - fraction.length)))

/-- A number at the front of a text. -/
def readNumber (cs : List Char) : Except Failure (Value × List Char) :=
  let (negative, unsigned) := match cs with
    | '-' :: rest => (true, rest)
    | _ => (false, cs)
  match readWhole? unsigned with
  | none => invalid
  | some (whole, rest) =>
    let (fraction, rest) := readFraction rest
    let (exponent, rest) := readExponent rest
    (numberOf negative whole fraction exponent).map fun v => (v, rest)

/-! ### Values -/

/-- The words that stand for values. -/
def words : List (List Char × Value) :=
  [("null".toList, .null), ("true".toList, .bool true), ("false".toList, .bool false),
    ("NaN".toList, .float .nan), ("Infinity".toList, .float (.infinite false)),
    ("-Infinity".toList, .float (.infinite true))]

/-- A word or a number at the front of a text. -/
def readScalar (cs : List Char) : Except Failure (Value × List Char) :=
  match words.find? fun (word, _) => word.isPrefixOf cs with
  | some (word, v) => .ok (v, cs.drop word.length)
  | none => readNumber cs

mutual

/-- A value at the front of a text.  Every nested reader has a character less before it, so the length
    of the text is enough for `fuel`. -/
def readValue : (fuel : Nat) → List Char → Except Failure (Value × List Char)
  | 0, _ => invalid
  | fuel + 1, cs =>
    match cs with
    | '"' :: rest => (readString rest.length [] rest).map fun (s, rest) => (.text s, rest)
    | '[' :: rest =>
      match skipBlanks rest with
      | ']' :: rest => .ok (.list [], rest)
      | rest => readItems fuel [] rest
    | '\x7b' :: rest =>
      match skipBlanks rest with
      | '\x7d' :: rest => .ok (.map [], rest)
      | rest => readEntries fuel [] rest
    | _ => readScalar cs

/-- The items of a list from the next one on; `before` are those before it, the last one first. -/
def readItems : (fuel : Nat) → (before : List Value) → List Char → Except Failure (Value × List Char)
  | 0, _, _ => invalid
  | fuel + 1, before, cs => do
    let (item, rest) ← readValue fuel cs
    match skipBlanks rest with
    | ',' :: rest => readItems fuel (item :: before) (skipBlanks rest)
    | ']' :: rest => return (.list (item :: before).reverse, rest)
    | _ => invalid

/-- The entries of a map from the next one on.  A name that comes again keeps its place and takes the
    later value. -/
def readEntries : (fuel : Nat) → (before : List (Value × Value)) → List Char →
    Except Failure (Value × List Char)
  | 0, _, _ => invalid
  | fuel + 1, before, cs => do
    match cs with
    | '"' :: rest =>
      let (name, rest) ← readString rest.length [] rest
      match skipBlanks rest with
      | ':' :: rest =>
        let (value, rest) ← readValue fuel (skipBlanks rest)
        let entries := Value.putEntry before (.text name) value
        match skipBlanks rest with
        | ',' :: rest => readEntries fuel entries (skipBlanks rest)
        | '\x7d' :: rest => return (.map entries, rest)
        | _ => invalid
      | _ => invalid
    | _ => invalid

end

/-- The value that a text spells, with blanks around it.  A byte order mark is not one of them. -/
def parse (text : String) : Except Failure Value := do
  let cs := skipBlanks text.toList
  let (v, rest) ← readValue (cs.length + 1) cs
  if (skipBlanks rest).isEmpty then return v else invalid

end TypedClient.Json
