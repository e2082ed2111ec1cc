import TypedClient.Text.Cut
import TypedClient.Yaml.Timestamp

namespace TypedClient.Yaml

/-!
# Forms of plain texts

A plain text that has the form of a number, a date or one of a few words stands for a value of that kind
and not for a text.

* `isInteger`, `isReal`: the forms of numbers.
* `implicitTag`: the tag that a plain text has by its form.
-/

/-- The tag of a kind of values that every document knows. -/
def coreTag (kind : String) : String :=
  "tag:yaml.org,2002:" ++ kind

/-- Digits can be grouped with underscores. -/
def isGroupedDigit (c : Char) : Bool :=
  c.isDigit || c == '_'

/-- Grouped digits; the first character is a digit. -/
def isGrouped (cs : List Char) : Bool :=
  (cs.head?.elim false Char.isDigit) && cs.all isGroupedDigit

/-- A number below sixty in one or two digits. -/
def isSixtieth : List Char → Bool
  | [c] => c.isDigit
  | [c, d] => '0' ≤ c && c ≤ '5' && d.isDigit
  | _ => false

/-- An integer: binary, octal, hexadecimal, decimal, or in base sixty with colons between the places. -/
def isInteger (cs : List Char) : Bool :=
  let body := (Numeral.splitSign cs).2
  match body with
  | [] => false
  | '0' :: 'b' :: rest => !rest.isEmpty && rest.all fun c => c == '0' || c == '1' || c == '_'
  | '0' :: 'x' :: rest =>
    !rest.isEmpty && rest.all fun c =>
      isGroupedDigit c || ('a' ≤ c && c ≤ 'f') || ('A' ≤ c && c ≤ 'F')
  | '0' :: rest => rest.all fun c => ('0' ≤ c && c ≤ '7') || c == '_'
  | _ =>
    match Text.pieces ':' body with
    | whole :: places => isGrouped whole && places.all isSixtieth
    | [] => false

/-- Digits after a point, and perhaps an exponent, which must have a sign. -/
def isFraction (cs : List Char) : Bool :=
  match cs.dropWhile isGroupedDigit with
  | [] => true
  | e :: sign :: digits =>
    (e == 'e' || e == 'E') && (sign == '-' || sign == '+') && !digits.isEmpty
      && digits.all Char.isDigit
  | _ => false

/-- A number with a point: with an exponent, in base sixty, infinite, or none. -/
def isReal (cs : List Char) : Bool :=
  let body := (Numeral.splitSign cs).2
  let signed := body.length != cs.length
  match Text.after? '.' body with
  | none => false
  | some fraction =>
    let whole := Text.before '.' body
    if whole.isEmpty then
      [".inf", ".Inf", ".INF"].any (·.toList == body)
        || (!signed && ([".nan", ".NaN", ".NAN"].any (·.toList == body)
          || ((fraction.head?.elim false Char.isDigit) && isFraction fraction)))
    else
      match Text.pieces ':' whole with
      | first :: places =>
        isGrouped first && places.all isSixtieth
          && (if places.isEmpty then isFraction fraction else fraction.all isGroupedDigit)
      | [] => false

/-- The words that stand for truth values. -/
def truthWords : List String :=
  ["true", "True", "TRUE", "false", "False", "FALSE"]

/-- The words that stand for no value, as does an empty text. -/
def nullWords : List String :=
  ["~", "null", "Null", "NULL"]

/-- The tag that a plain text has by its form; a line end behind a form does not count. -/
def implicitTag (text : String) : String :=
  let cs := text.toList
  let form := if cs.getLast? = some '\n' then cs.dropLast else cs
  let word := String.ofList form
  if truthWords.contains word then coreTag "bool"
  else if text.isEmpty || nullWords.contains word then coreTag "null"
  else if isReal form then coreTag "float"
  else if isInteger form then coreTag "int"
  else if word = "<<" then coreTag "merge"
  else if word = "=" then coreTag "value"
  else if ["!", "&", "*"].contains word then coreTag "yaml"
  else if (Timestamp.ofForm? form).isSome then coreTag "timestamp"
  else coreTag "str"

end TypedClient.Yaml
