import TypedClient.Document.Access
import TypedClient.Failure
import TypedClient.Table
import TypedClient.Toml.Document

namespace TypedClient.Toml

/-!
# Writing TOML

Settings are written one to a line, then lists of tables, then tables under their heads.

* `writtenText`: a text in quotes.
* `writtenValue`: a value on one line.
* `sectionsOf`: the lines of a table, and the tables in it.
* `write`: all of them.
-/

/-! ### Texts -/

/-- What stands between two numbered characters: an even number of backslashes, or one more, changes how
    the next number is written. -/
def attach (first second : List Char) : List Char :=
  let first := Text.replaceFrom ['\\', '\\'] ['\\'] 0 first
  let row := Layout.trailing '\\' first.reverse
  let plain := row = 0 ∨ min row (first.length - 1) % 2 = 1
  first ++ (if plain then ['x'] else ['u', '0', '0']) ++ second

/-- Puts the pieces between the marks of numbered characters together.  A text must not begin with its only
    numbered character. -/
def joinNumbers (pieces : List (List Char)) : Except Failure (List Char) :=
  match pieces with
  | [] => .ok []
  | [last] => .ok last
  | [] :: second :: rest =>
    match second, rest with
    | [], _ => .error (.shape .tooShort)
    | _, [] => .error (.shape .tooShort)
    | _, third :: rest => joinNumbers (attach second third :: rest)
  | first :: second :: rest => joinNumbers (attach first second :: rest)
termination_by pieces.length

/-- The characters of a text between double quotes. -/
def textBody (s : String) : List Char :=
  let written := (quoted s).toList
  let inner := (written.drop 1).dropLast
  if written.head? = some '\'' then
    Text.replaceFrom ['"'] ['\\', '"'] 0 (Text.replaceFrom ['\\', '\''] ['\''] 0 inner)
  else inner

/-- A text in quotes. -/
def writtenText (s : String) : Except Failure String := do
  let body := textBody s
  let body ← joinNumbers (Text.piecesUpTo body.length ['\\', 'x'] body)
  return String.ofList ('"' :: (body ++ ['"']))

/-- A plain name; a line end behind it does not count. -/
def isPlainName (s : String) : Bool :=
  let cs := s.toList
  let name := if cs.getLast? = some '\n' then cs.dropLast else cs
  !name.isEmpty && name.all isNameChar

/-- The name of a setting; only plain names stand without quotes. -/
def writtenName (s : String) : Except Failure String :=
  if isPlainName s then .ok s else writtenText s

/-! ### Values -/

/-- A number with a fraction; its exponent has no zero in front. -/
def writtenFloat (x : Binary64) : String :=
  Text.replaceAll "e-0" "e-" (Text.replaceAll "e+0" "e+" x.display)

/-- A moment with a letter between day and time, and another one for universal time. -/
def writtenMoment (m : Moment) : String :=
  Text.replaceAll "+00:00" "Z" (Text.replaceAll " " "T" m.display)

mutual

/-- A value on one line. -/
def writtenValue : Value → Except Failure String
  | .text s => writtenText s
  | .bool b => .ok (if b then "true" else "false")
  | .int n => (Value.int n).asDisplayed
  | .float x => .ok (writtenFloat x)
  | .date d => .ok d.display
  | .time t => .ok t.display
  | .moment m => (Value.moment m).asDisplayed.map fun _ => writtenMoment m
  | .null => .ok "\"None\""
  | .bytes octets => .ok ("[" ++ String.join (octets.map fun b => " " ++ toString b.toNat ++ ",") ++ "]")
  | .list items | .tuple items | .set items => do return "[" ++ (← writtenItems items) ++ "]"
  | .map entries => do return "[" ++ (← writtenKeys entries) ++ "]"
  | .again _ content => writtenValue content
  | .endless => .error (.access .endless)

/-- The items of a list. -/
def writtenItems : List Value → Except Failure String
  | [] => .ok ""
  | v :: rest => do
    let first ← writtenValue v
    return " " ++ first ++ "," ++ (← writtenItems rest)

/-- The names in a table that stands among other values. -/
def writtenKeys : List (Value × Value) → Except Failure String
  | [] => .ok ""
  | (key, _) :: rest => do
    let first ← writtenValue key
    return " " ++ first ++ "," ++ (← writtenKeys rest)

end

/-! ### Tables -/

/-- The lines of a table, and the tables in it by name. -/
structure Sections where
  settings : String
  /-- The lists of tables, which come after all settings. -/
  lists : String
  tables : Table String Entries

/-- The text of sections without the tables in them. -/
def Sections.text (s : Sections) : String :=
  s.settings ++ s.lists

/-- Is one of the items a table? -/
def hasTable (items : List Value) : Bool :=
  items.any fun
    | .map _ => true
    | _ => false

/-- The settings of an item of a list of tables; what is empty has none.  In any other list or text the first
    part is taken for a name before it turns out that there is no value for it. -/
def itemEntries (item : Value) : Except Failure Entries :=
  match item with
  | .map entries => .ok entries
  | .list items => namesOnly items
  | .text s => namesOnly ((Text.characters s).map .text)
  | _ => .error Failure.notUsable
where
  /-- The settings of names without values. -/
  namesOnly : List Value → Except Failure Entries
    | [] => .ok []
    | first :: _ => do
      let _ ← writtenName (← first.asDisplayed)
      throw Failure.notUsable

/-- The front part of the names inside of a table. -/
def within (outer : String) : String :=
  if outer = "" ∨ outer.endsWith "." then outer else outer ++ "."

mutual

/-- The lines of a table with the name `outer`.  Every nested table has fewer values, which bounds
    `fuel`. -/
def sectionsOf : (fuel : Nat) → (outer : String) → Entries → Except Failure Sections
  | 0, _, _ => .error (.access .endless)
  | fuel + 1, outer, entries => do
    entries.foldlM
      (fun s (key, v) => do
        let name ← writtenName (← key.asDisplayed)
        match v with
        | .map inner => return { s with tables := s.tables.put name inner }
        | .null => return s
        | .list items =>
          if hasTable items then
            return { s with lists := s.lists ++ (← listSections fuel (within outer ++ name) items) }
          else return { s with settings := s.settings ++ name ++ " = " ++ (← writtenValue v) ++ "\n" }
        | _ => return { s with settings := s.settings ++ name ++ " = " ++ (← writtenValue v) ++ "\n" })
      ⟨"", "", []⟩

/-- The tables of a list. -/
def listSections : (fuel : Nat) → (name : String) → List Value → Except Failure String
  | 0, _, _ => .error (.access .endless)
  | _, _, [] => .ok ""
  | fuel + 1, name, item :: rest => do
    let s ← sectionsOf fuel name (← itemEntries item)
    let (front, back) := if s.text.startsWith "[" then ("", s.text) else (s.text, "")
    let inner ← innerTables fuel name s.tables
    return "[[" ++ name ++ "]]\n" ++ front ++ "\n" ++ back ++ inner ++ (← listSections fuel name rest)

/-- The tables inside of an item of a list, one level of nesting after the other. -/
def innerTables : (fuel : Nat) → (name : String) → Table String Entries → Except Failure String
  | 0, _, _ => .error (.access .endless)
  | _, _, [] => .ok ""
  | fuel + 1, name, tables => do
    let (text, next) ← tables.foldlM
      (fun (text, next) (inner, entries) => do
        let s ← sectionsOf fuel (name ++ "." ++ inner) entries
        let head := if s.text = "" then "" else "[" ++ name ++ "." ++ inner ++ "]\n"
        return (text ++ head ++ s.text, next ++ s.tables.map fun (n, es) => (inner ++ "." ++ n, es)))
      ("", ([] : Table String Entries))
    return text ++ (← innerTables fuel name next)

end

/-- Adds tables under their heads, one level of nesting after the other; an empty line stands before every
    head but the first. -/
def writeTables : (fuel : Nat) → (text : String) → Table String Entries → Except Failure String
  | 0, _, _ => .error (.access .endless)
  | _, text, [] => .ok text
  | fuel + 1, text, tables => do
    let (text, next) ← tables.foldlM
      (fun (text, next) (name, entries) => do
        let s ← sectionsOf fuel name entries
        let parted := if text ≠ "" ∧ !text.endsWith "\n\n" then text ++ "\n" else text
        let text :=
          if s.text ≠ "" ∨ s.tables.isEmpty then parted ++ "[" ++ name ++ "]\n" ++ s.text else text
        return (text, next ++ s.tables.map fun (n, es) => (name ++ "." ++ n, es)))
      (text, ([] : Table String Entries))
    writeTables fuel text next

/-- The text of settings. -/
def write (entries : Entries) : Except Failure String := do
  let fuel := 2 * Value.weightEntries entries + 2
  let s ← sectionsOf fuel "" entries
  writeTables fuel s.text s.tables

end TypedClient.Toml
