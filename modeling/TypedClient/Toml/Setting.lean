import TypedClient.Toml.Number

namespace TypedClient.Toml

/-!
# Settings in TOML

A setting is a name and a value on one line.  Values can be lists and tables in one line; a text on
several lines begins on the line of its name.

* `ValueKind`: the kinds of values; the items of a list have one kind.
* `quoteParts`: the parts of a line inside and outside of quotes.
* `splitSetting`: name and value of a line.
* `valueOf`, `listOf`, `readInline`, `readSetting`: values and settings.
-/

/-- The kinds of values. -/
inductive ValueKind where
  | bool
  | text
  | list
  | table
  | time
  | date
  | int
  | float
  deriving DecidableEq, Repr, Inhabited

/-- The settings of a table. -/
abbrev Entries := List (Value × Value)

/-- A text on several lines that goes on: the name of the setting, the text so far, and whether the line
    end was escaped. -/
structure Continuation where
  name : String
  text : List Char
  escaped : Bool
  deriving DecidableEq, Repr, Inhabited

/-! ### Lines -/

/-- Is the character a quote? -/
def isQuote (c : Char) : Bool :=
  c == '"' || c == '\''

/-- Puts the pieces between double quotes back to the last piece between single quotes while an odd number
    of single quotes is open. -/
def regroup : (singles : List (List Char)) → (doubles : List (List Char)) →
    List (List Char) × List (List Char)
  | singles, [] => (singles, [])
  | singles, d :: rest =>
    if singles.length % 2 = 0 then
      let last := singles.getLast?.getD [] ++ '"' :: d
      regroup (singles.dropLast ++ Text.pieces '\'' last) rest
    else (singles, d :: rest)

/-- The parts of a line between its quotes, the first of them outside of quotes, the next one inside, and so
    on.  Behind the first double quote only double quotes count. -/
def quoteParts (line : List Char) : List (List Char) :=
  let doubles := Text.pieces '"' line
  let first := doubles.head?.getD []
  let (singles, doubles) :=
    if 1 < doubles.length ∧ first.contains '\'' then
      regroup (Text.pieces '\'' first) (doubles.drop 1)
    else ([], doubles)
  match doubles with
  | [] => singles
  | d :: rest => singles ++ Text.pieces '\'' d ++ rest

/-- The number of marks up to the first one outside of quotes, that one included. -/
def marksUpTo (mark : List Char) (quoted : Bool) (count : Nat) : List (List Char) → Nat
  | [] => count
  | part :: rest =>
    if !quoted && Text.occursIn mark part then count
    else marksUpTo mark (!quoted) (count + Text.occurrences mark part) rest

/-- Can the value of a line begin like this?  A value without a blank in front of it must be a number, a
    date, a time, or begin with a mark of its own. -/
def isValueStart (value : List Char) : Bool :=
  match value with
  | [] => true
  | c :: _ =>
    c == ' ' || c == '\t' || isQuote c || c == '[' || c == '\x7b'
      || [("true".toList), ("false".toList)].contains (Text.trim value)
      || (real? value).isSome || (dateOf? value).isSome || isTime value

/-- A line cut at an equals sign. -/
structure SettingText where
  name : List Char
  value : List Char
  /-- A number after any of the equals signs that were tried is written without needless characters. -/
  strict : Bool

/-- A line cut at its first equals signs, at the one numbered `count`. -/
def cutSetting (line : List Char) (count : Nat) : SettingText :=
  let pieces := Text.piecesUpTo count ['='] line
  let value := pieces.getLast?.getD []
  ⟨Text.joinPieces '=' pieces.dropLast, value, isStrictNumber value⟩

/-- Moves the cut of a line to further equals signs until a value follows. -/
def moveToValue (line : List Char) : (fuel count : Nat) → SettingText → Except Failure SettingText
  | 0, _, _ => unsuitable
  | fuel + 1, count, s =>
    if isValueStart s.value then .ok s
    else
      let next := cutSetting line (count + 1)
      if next.value = s.value then unsuitable
      else moveToValue line fuel (count + 1) { next with strict := s.strict && next.strict }

/-- Name and value of a line.  A value that begins with a digit at once loses its underscores. -/
def splitSetting (line : List Char) : Except Failure SettingText := do
  let count := marksUpTo ['='] false 1 (quoteParts line)
  let s := cutSetting line count
  let s :=
    if s.value.head?.elim false Char.isDigit then { s with value := s.value.filter (· != '_') } else s
  let s ← moveToValue line (line.length + 1) count s
  return { s with name := Text.trim s.name, value := Text.trim s.value }

/-! ### Names -/

/-- The words of a name with dots in it. -/
def dottedWords (name : List Char) : List (List Char) :=
  let rec unquotedWords (quoted : Bool) : List (List Char) → List (List Char)
    | [] => []
    | part :: rest =>
      (if quoted then [part] else (Text.pieces '.' part).map Text.trim)
        ++ unquotedWords (!quoted) rest
  if name.any isQuote then unquotedWords false (quoteParts name) else Text.pieces '.' name

/-- The tables that a name leads through, and the name in the last of them. -/
def nameOf (name : List Char) : Except Failure (List String × String) :=
  if name.contains '.' then
    match ((dottedWords name).reverse.dropWhile (·.isEmpty)) with
    | [] => .error (.shape .tooShort)
    | last :: outer =>
      .ok (((outer.reverse.filter (!·.isEmpty)).map String.ofList), String.ofList (Text.trim last))
  else
    match name with
    | [] => .error (.shape .tooShort)
    | c :: rest =>
      if isQuote c && name.getLast? == some c then
        (decodeEscapes rest.dropLast).map fun cs => ([], String.ofList cs)
      else .ok ([], String.ofList name)

/-! ### Texts on several lines -/

/-- Does a value begin with three quotes that are not closed? -/
def opensText (value : List Char) : Except Failure Bool :=
  match value with
  | [] => .error (.shape .tooShort)
  | c :: rest =>
    if !isQuote c then .ok false
    else
      match rest with
      | d :: e :: _ =>
        .ok (d == c && e == c
          && !(5 < value.length && (value.reverse.take 3).all (· == c)))
      | [d] => if d = c then .error (.shape .tooShort) else .ok false
      | [] => .error (.shape .tooShort)

/-- Does a list hold texts? -/
def holdsTexts (list : List Char) : Bool :=
  (Text.trim (list.drop 1).dropLast).head?.elim false isQuote

/-- Joins the last pieces until one begins with a quote. -/
def lastText : (pieces : List (List Char)) → (tail : List Char) → Except Failure (List Char)
  | [], tail => .ok tail
  | piece :: earlier, tail =>
    match tail with
    | [] => .error (.shape .tooShort)
    | c :: _ => if isQuote c then .ok tail else lastText earlier (piece ++ ',' :: tail)

/-- Does the text of a value, or the last text of a list, go on in the next line? -/
def goesOn (value : List Char) : Except Failure Bool :=
  if value.length < 3 then .ok false
  else if value.head? = some '[' ∧ value.getLast? ≠ some ']' ∧ holdsTexts value then
    match (Text.pieces ',' (Text.trim (value.drop 1))).reverse with
    | [] => .ok false
    | last :: earlier => do opensText (← lastText earlier last)
  else opensText value

/-- What a text becomes at the end of a line: an escaped line end is dropped with its backslash. -/
def continued (name : String) (text : List Char) : Continuation :=
  if Layout.trailing '\\' text.reverse % 2 = 1 then ⟨name, text.dropLast, true⟩
  else ⟨name, text ++ ['\n'], false⟩

/-! ### Lists -/

/-- Does a piece of a list begin and end with one quote? -/
def isBounded (piece : List Char) : Bool :=
  match piece with
  | [] => true
  | c :: rest =>
    piece.getLast? == some c && Layout.trailing '\\' (rest.dropLast.reverse) % 2 = 0

/-- Do three quotes begin a piece that no three quotes end? -/
def isHalfOpen (piece : List Char) : Bool :=
  match piece, piece.reverse with
  | c :: d :: e :: _, _ :: y :: z :: _ => d == c && e == c && y != c && z != c
  | _, _ => false

/-- Puts pieces together that a comma inside of a text has parted. -/
def joinTexts (fuel : Nat) : List (List Char) → Except Failure (List (List Char))
  | [] => .ok []
  | [last] => .ok [last]
  | piece :: next :: rest =>
    let whole := Text.trim piece
    if !isBounded whole || isHalfOpen whole then
      match fuel with
      | 0 => .error (.shape .tooShort)
      | fuel + 1 =>
        match rest with
        | [] => if isOpen (piece ++ ',' :: next) then .error (.shape .tooShort)
          else .ok [piece ++ ',' :: next]
        | _ => joinTexts fuel ((piece ++ ',' :: next) :: rest)
    else (joinTexts fuel (next :: rest)).map (piece :: ·)
where
  /-- Is a text still open in a piece? -/
  isOpen (piece : List Char) : Bool :=
    let whole := Text.trim piece
    !isBounded whole || isHalfOpen whole

/-- State of cutting a list of tables: the characters of the table so far, the last one first, the number of
    open braces, and whether a text is open. -/
structure TableCut where
  chars : List Char
  braces : Nat
  inText : Bool

/-- One character of a list of tables; gives the table that it ends, if it ends one. -/
def TableCut.step (t : TableCut) (c : Char) : TableCut × Bool :=
  let inText :=
    if isQuote c then
      if t.inText && Layout.trailing '\\' t.chars % 2 = 1 then t.inText else !t.inText
    else t.inText
  let braces := if !inText && c == '\x7b' then t.braces + 1 else t.braces
  let chars := c :: t.chars
  if inText || c != '\x7d' then (⟨chars, braces, inText⟩, false)
  else if 1 < braces then (⟨chars, braces - 1, inText⟩, false)
  else (⟨chars, braces, inText⟩, true)

/-- The tables of a list.  What stands between them is passed over. -/
def cutTables : (fuel : Nat) → TableCut → List Char → List (List Char)
  | 0, _, _ => []
  | _, _, [] => []
  | fuel + 1, t, c :: rest =>
    let (t, ended) := t.step c
    if ended then
      match (rest.drop 1).dropWhile (· != '\x7b') with
      | [] => [t.chars.reverse]
      | first :: rest => t.chars.reverse :: cutTables fuel { t with chars := [first] } rest
    else cutTables fuel t rest

/-- The lists that stand in a list. -/
def cutLists (depth : Int) (piece : List Char) : List Char → List (List Char)
  | [] => [piece.reverse]
  | c :: rest =>
    if c = '[' then cutLists (depth + 1) (c :: piece) rest
    else if c = ']' then cutLists (depth - 1) (c :: piece) rest
    else if c = ',' ∧ depth = 0 then piece.reverse :: cutLists depth [] rest
    else cutLists depth (c :: piece) rest

/-- The items of a list as they are written.  The first and the last character are taken for its
    brackets. -/
def itemsOf (list : List Char) : Except Failure (List (List Char)) :=
  let list := Text.trim list
  let inner := (list.drop 1).dropLast
  if inner.contains '[' ∧ (Text.trim (Text.before '[' inner)).isEmpty then .ok (cutLists 0 [] inner)
  else
    let pieces :=
      if (Text.trim inner).head? = some '\x7b' then
        match inner with
        | [] => []
        | c :: rest => cutTables rest.length ⟨[c], if c = '\x7b' then 1 else 0, false⟩ rest
      else Text.pieces ',' inner
    if holdsTexts list then joinTexts pieces.length pieces else .ok pieces

/-! ### Values -/

/-- The kind of a number, date or time. -/
def scalarKind : Value → ValueKind
  | .float _ => .float
  | .int _ => .int
  | .time _ => .time
  | _ => .date

/-- Does a value in a table end with its line piece, or does a comma inside of it part it? -/
def isWhole (value : List Char) : Except Failure Bool :=
  match value.head?, value.getLast? with
  | some c, some d =>
    .ok ((c == d && isQuote c) || c == '-' || c.isDigit || value = "true".toList
      || value = "false".toList || (c == '[' && d == ']') || (c == '\x7b' && d == '\x7d'))
  | _, _ => .error (.shape .tooShort)

/-- The settings of a table in one line, as they are written. -/
def inlineSettings : List (List Char) → Except Failure (List (List Char))
  | [] => .ok []
  | [last] =>
    match Text.after? '=' last with
    | none => unsuitable
    | some value => do if ← isWhole (Text.trim value) then return [last] else unsuitable
  | piece :: next :: rest =>
    match Text.after? '=' piece with
    | none => unsuitable
    | some value => do
      if ← isWhole (Text.trim value) then return piece :: (← inlineSettings (next :: rest))
      else inlineSettings ((piece ++ ',' :: next) :: rest)
termination_by pieces => pieces.length

/-- Sets a name in a table, which must not be there yet. -/
def setNew (name : String) (value : Value) (table : Value) : Except Failure Value :=
  match table with
  | .map entries =>
    if (Value.find? name entries).isSome then unsuitable
    else .ok (.map (Value.putEntry entries (.text name) value))
  | _ => unsuitable

/-- Changes the table that names lead to; tables that are missing on the way are made. -/
def changeIn (change : Value → Except Failure Value) : List String → Value → Except Failure Value
  | [], table => change table
  | name :: rest, .map entries => do
    let inner ← changeIn change rest ((Value.find? name entries).getD (.map []))
    return .map (Value.putEntry entries (.text name) inner)
  | _ :: _, _ => .error Failure.notUsable

/-- The values of the items of a list, which have one kind.  An item of another kind than those
    before it is refused before the next one is read. -/
def uniformValues (read : List Char → Except Failure (Value × ValueKind)) :
    (kind : Option ValueKind) → List (List Char) → Except Failure (List Value)
  | _, [] => .ok []
  | kind, item :: rest => do
    let (v, k) ← read item
    if (kind.getD k) == k then return v :: (← uniformValues read (some k) rest) else unsuitable

mutual

/-- What a value denotes, and its kind; `strict` tells that a number is written without needless
    characters.  Values inside of it are shorter, so the length of the text is enough for `fuel`. -/
def valueOf : (fuel : Nat) → (strict : Bool) → List Char → Except Failure (Value × ValueKind)
  | 0, _, _ => unsuitable
  | fuel + 1, strict, cs =>
    match cs with
    | [] => unsuitable
    | c :: _ =>
      if cs = "true".toList then .ok (.bool true, .bool)
      else if cs = "false".toList then .ok (.bool false, .bool)
      else if isQuote c then (textOf c cs).map fun s => (.text s, .text)
      else if c = '[' then (listOf fuel cs).map fun items => (.list items, .list)
      else if c = '\x7b' then (readInline fuel cs (.map [])).map fun table => (table, .table)
      else (scalarOf strict cs).map fun v => (v, scalarKind v)

/-- The items of a list; they have one kind, and empty ones do not count. -/
def listOf : (fuel : Nat) → List Char → Except Failure (List Value)
  | 0, _ => unsuitable
  | fuel + 1, cs => do
    let items := ((← itemsOf cs).map Text.trim).filter (!·.isEmpty)
    uniformValues (valueOf fuel true) none items

/-- Adds the settings of a table in one line to a table. -/
def readInline : (fuel : Nat) → List Char → (table : Value) → Except Failure Value
  | 0, _, _ => unsuitable
  | fuel + 1, cs, table => do
    let pieces := Text.pieces ',' (cs.drop 1).dropLast
    let isEmpty := pieces.length = 1 && (Text.trim (pieces.head?.getD [])).isEmpty
    let settings ← if isEmpty then pure [] else inlineSettings pieces
    let (table, _) ← settings.foldlM
      (fun (table, ended) setting => do
        if ended then return (table, ended)
        let (table, next) ← readSetting fuel setting table
        return (table, next.isSome))
      (table, false)
    return table

/-- Adds the setting of a line to a table; a text that goes on is given back. -/
def readSetting : (fuel : Nat) → List Char → (table : Value) →
    Except Failure (Value × Option Continuation)
  | 0, _, _ => unsuitable
  | fuel + 1, line, table => do
    let s ← splitSetting line
    let (path, name) ← nameOf s.name
    let table ← changeIn .ok path table
    if ← goesOn s.value then
      let table ← changeIn (fun t => do let _ ← setNew name .null t; return t) path table
      if name = "" then .error (.shape .noValue) else return (table, some (continued name s.value))
    else
      let (v, _) ← valueOf fuel s.strict s.value
      return (← changeIn (setNew name v) path table, none)

end

end TypedClient.Toml
