import TypedClient.Toml.Setting

namespace TypedClient.Toml

/-!
# TOML documents

The lines of a text are settings and names of tables.  A setting belongs to the table that was named last.

* `Step`, `changeAt`: places inside of nested tables.
* `tableNames`: the names in the head of a table.
* `enter`: the place that the head of a table leads to.
* `Reader`, `Reader.line`: the state of reading, and one line.
* `parse`: the settings of a text.
-/

/-! ### Places -/

/-- A step into nested tables: to the value of a name, or to the last item of a list. -/
inductive Step where
  | name (s : String)
  | last
  deriving DecidableEq, Repr, Inhabited

/-- The value at a place. -/
def valueAt : List Step → Value → Option Value
  | [], v => some v
  | .name s :: rest, .map entries => (Value.find? s entries).bind (valueAt rest)
  | .last :: rest, .list items => items.getLast?.bind (valueAt rest)
  | _, _ => none

/-- Changes the value at a place. -/
def changeAt (change : Value → Except Failure Value) : List Step → Value → Except Failure Value
  | [], v => change v
  | .name s :: rest, .map entries => do
    let inner ← changeAt change rest ((Value.find? s entries).getD (.map []))
    return .map (Value.putEntry entries (.text s) inner)
  | .last :: rest, .list items => do
    let inner ← changeAt change rest (items.getLast?.getD (.map []))
    return .list (items.dropLast ++ [inner])
  | _, _ => .error Failure.notUsable

/-- Gives a name a value at a place. -/
def setAt (place : List Step) (name : String) (value : Value) (root : Value) :
    Except Failure Value :=
  changeAt
    (fun
      | .map entries => .ok (.map (Value.putEntry entries (.text name) value))
      | _ => .error Failure.notUsable)
    place root

/-! ### Heads of tables -/

/-- A character of a name without quotes. -/
def isNameChar (c : Char) : Bool :=
  c.isAlphanum || c == '_' || c == '-'

/-- Does a row of pieces begin and end with one quote? -/
def isQuoted (row : List Char) : Bool :=
  row.length != 1 && row.head? == row.getLast?

/-- The shortest row of pieces that begins and ends with one quote, and the pieces after it. -/
def quotedName (row : List Char) (pieces : List (List Char)) : Option (List Char × List (List Char)) :=
  if isQuoted (Text.trim row) then some (Text.trim row, pieces)
  else
    match pieces with
    | [] => none
    | piece :: rest => quotedName (row ++ '.' :: piece) rest

/-- What follows the shortest such row is not longer than what it was looked for in. -/
theorem length_of_quotedName {row name : List Char} {pieces rest : List (List Char)}
    (h : quotedName row pieces = some (name, rest)) : rest.length ≤ pieces.length := by
  induction pieces generalizing row with
  | nil =>
    unfold quotedName at h
    split at h
    · cases h; exact Nat.le_refl _
    · cases h
  | cons piece others ih =>
    unfold quotedName at h
    split at h
    · cases h; exact Nat.le_refl _
    · exact Nat.le_succ_of_le (ih h)

/-- The names between the dots of a head; a name with dots in it stands in quotes. -/
def namesOf (pieces : List (List Char)) : Except Failure (List String) :=
  match pieces with
  | [] => .ok []
  | piece :: rest =>
    let word := Text.trim piece
    if word.head?.elim false isQuote then
      match _h : quotedName word rest with
      | none => invalid
      | some (name, rest) => do
        return String.ofList (name.drop 1).dropLast :: (← namesOf rest)
    else if word.isEmpty || !word.all isNameChar then invalid
    else do return String.ofList word :: (← namesOf rest)
termination_by pieces.length
decreasing_by
  · have := length_of_quotedName _h
    simp
    omega
  · simp

/-- The names in the head of a table, after its opening brackets; nothing may follow the closing ones. -/
def tableNames (closing : List Char) (line : List Char) : Except Failure (List String) := do
  let count := marksUpTo closing false 1 (quoteParts line)
  let pieces := Text.piecesUpTo count closing line
  if pieces.length < count + 1 || !(Text.trim (pieces.getLast?.getD [])).isEmpty then invalid
  namesOf (Text.pieces '.' (Text.joinWith closing pieces.dropLast))

/-! ### Reading -/

/-- The state of reading. -/
structure Reader where
  root : Value
  /-- The table that was named last. -/
  place : List Step
  /-- Names of tables that exist only because tables in them do. -/
  implicit : List String
  /-- The text that goes on in the next line. -/
  open? : Option Continuation
  deriving Inhabited, Repr

/-- A fresh table, or a list with a fresh table in it. -/
def fresh (isList : Bool) : Value :=
  if isList then .list [.map []] else .map []

/-- Goes to the last item of a list. -/
def intoLast (r : Reader) (place : List Step) : Except Failure (List Step) :=
  match valueAt place r.root with
  | some (.list []) => .error (.shape .tooShort)
  | some (.list _) => .ok (place ++ [.last])
  | some (.text "") => .error (.shape .tooShort)
  | some (.map _) => .ok place
  | _ => .error Failure.notUsable

/-- Goes into the table `name` of the table at a place; `isLast` tells that it is the one that the head
    names, and `isArray` that the head names lists of tables. -/
def enter (isArray isLast : Bool) (name : String) (place : List Step) (r : Reader) :
    Except Failure (Reader × List Step) := do
  if name = "" then invalid
  let (r, place) ←
    match valueAt place r.root with
    | some (.map entries) =>
      match Value.find? name entries with
      | some v =>
        let here := place ++ [.name name]
        if !isLast then pure (r, here)
        else if r.implicit.contains name then
          if isArray then invalid else pure ({ r with implicit := r.implicit.erase name }, here)
        else if isArray then
          match v with
          | .list items =>
            pure ({ r with root := ← changeAt (fun _ => .ok (.list (items ++ [.map []]))) here r.root },
              here)
          | _ => throw Failure.notApplicable
        else invalid
      | none =>
        let root ← setAt place name (fresh (isLast && isArray)) r.root
        let implicit := if isLast then r.implicit else r.implicit ++ [name]
        pure ({ r with root, implicit }, place ++ [.name name])
    | some (.list []) | some (.text "") => throw (.shape .tooShort)
    | some (.list _) =>
      let item := place ++ [.last]
      let here := item ++ [.name name]
      match valueAt item r.root with
      | some (.map entries) =>
        if (Value.find? name entries).isSome then pure (r, here)
        else pure ({ r with root := ← setAt item name (fresh (isLast && isArray)) r.root }, here)
      | _ => throw Failure.notUsable
    | _ => throw Failure.notUsable
  if isArray then return (r, ← intoLast r place) else return (r, place)

/-- Goes into one table after the other. -/
def enterAll (isArray : Bool) : List String → (place : List Step) → Reader →
    Except Failure (Reader × List Step)
  | [], place, r => .ok (r, place)
  | name :: rest, place, r => do
    let (r, place) ← enter isArray rest.isEmpty name place r
    enterAll isArray rest place r

namespace Reader

/-- Values that do not denote anything are not TOML. -/
def checked {α : Type} (x : Except Failure α) : Except Failure α :=
  match x with
  | .error (.access .invalidScalar) => invalid
  | x => x

/-- The head of a table. -/
def head (r : Reader) (line : List Char) : Except Failure Reader := do
  if line.length = 1 then invalid
  let isArray := (line.drop 1).head? = some '['
  let names ←
    if isArray then tableNames [']', ']'] (line.drop 2) else tableNames [']'] (line.drop 1)
  let (r, place) ← enterAll isArray names [] r
  return { r with place }

/-- A line of a text that goes on. -/
def more (r : Reader) (c : Continuation) (line : List Char) : Except Failure Reader := do
  let text := c.text ++ line
  let closed ←
    match text.head?, line.getLast? with
    | some '[', none => throw (.shape .tooShort)
    | some '[', some last => pure (last == ']')
    | some quote, _ => pure (2 < line.length && (line.reverse.take 3).all (· == quote))
    | none, _ => throw (.shape .tooShort)
  if closed then
    let (v, _) ← checked (valueOf (text.length + 1) true text)
    return { r with root := ← setAt r.place c.name v r.root, open? := none }
  else return { r with open? := some (continued c.name text) }

/-- A line that begins a setting or a table.  A line that is neither says nothing. -/
def start (r : Reader) (line : List Char) : Except Failure Reader :=
  match line with
  | [] => .ok r
  | '[' :: _ => r.head line
  | '\x7b' :: _ =>
    if line.getLast? ≠ some '\x7d' then invalid
    else do
      let root ← changeAt (fun t => checked (readInline (line.length + 1) line t)) r.place r.root
      return { r with root }
  | _ =>
    if line.contains '=' then do
      match valueAt r.place r.root with
      | none => throw Failure.notUsable
      | some table =>
        let (table, open?) ← checked (readSetting (line.length + 1) line table)
        return { r with root := ← changeAt (fun _ => .ok table) r.place r.root, open? }
    else .ok r

/-- One line.  A text that goes on keeps the blanks of its lines, but for those behind an escaped line
    end. -/
def line (r : Reader) (line : List Char) : Except Failure Reader :=
  match r.open? with
  | none => r.start (Text.trim line)
  | some c =>
    let line := if c.escaped || !c.text.contains '\n' then Text.trim line else line
    if line.isEmpty && c.escaped then .ok r else r.more c line

end Reader

/-- The settings of a text. -/
def parse (text : String) : Except Failure Value := do
  let lines ← layoutLines text
  let r ← lines.foldlM Reader.line ⟨.map [], [], [], none⟩
  return r.root

end TypedClient.Toml
