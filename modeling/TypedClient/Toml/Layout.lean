import TypedClient.Failure
import TypedClient.Text.Blank
import TypedClient.Text.Letter

namespace TypedClient.Toml

/-!
# The lines of a TOML text

Before the settings in a text are read its lines are put in order: comments become blanks, the lines of
an array become one line, and the line end behind the opening quotes of a text on several lines goes
away.  On the way the names of settings are checked.

* `Layout`: the state of the pass.
* `Layout.step`: one character.
* `layoutLines`: the lines in order.
-/

/-- The text is not TOML. -/
def invalid {α : Type} : Except Failure α :=
  .error (.access .invalidToml)

/-- Part of a line with respect to the name of a setting. -/
inductive NamePart where
  /-- Not inside of a name. -/
  | outside
  /-- Inside of a word of a name. -/
  | word
  /-- Behind a word of a name. -/
  | behind
  deriving DecidableEq, Repr, Inhabited

/-- The state of the pass. -/
structure Layout where
  /-- The characters so far, the last one first. -/
  before : List Char
  /-- The characters of the text, the last one first. -/
  ending : List Char
  part : NamePart
  /-- The quote that is open. -/
  quote : Option Char
  /-- A text on several lines is open. -/
  multiline : Bool
  /-- The name of a table is open. -/
  table : Bool
  /-- The name of an array of tables is open. -/
  tableArray : Bool
  lineStart : Bool
  /-- The name has a dot in it. -/
  dotted : Bool
  comment : Bool
  /-- The number of open brackets of arrays. -/
  brackets : Int
  deriving Inhabited, Repr

namespace Layout

/-- The state before a text. -/
def start (text : List Char) : Layout where
  before := []
  ending := text.reverse
  part := .outside
  quote := none
  multiline := false
  table := false
  tableArray := false
  lineStart := true
  dotted := false
  comment := false
  brackets := 0

/-- The number of marks at the end of what came before. -/
def trailing (mark : Char) (before : List Char) : Nat :=
  (before.takeWhile (· == mark)).length

/-! ### Names -/

/-- What a character does to the name that it stands in: it is passed over as part of the name, it ends the
    name, or it cannot stand there. -/
inductive NameStep where
  | stay (l : Layout)
  | leave (l : Layout)

/-- Inside of a name a new word begins with this character, unless it is a blank or a dot. -/
def wordFollows (next : Char) : Bool :=
  !Text.isBlank next && next != '.'

/-- Behind a dot, a character that begins a word begins the next word of the name. -/
def nextWord (l : Layout) (next : Option Char) : Except Failure Layout :=
  match next with
  | none => .error (.shape .tooShort)
  | some c => .ok (if wordFollows c then { l with part := .word } else l)

/-- The equals sign ends a name; nothing else can stand there. -/
def endName (l : Layout) (c : Char) : Except Failure NameStep :=
  if c = '=' then .ok (.leave { l with part := .outside, dotted := false }) else invalid

/-- One character of a name. -/
def stepName (l : Layout) (c : Char) (next : Option Char) : Except Failure NameStep :=
  if c = '\n' then invalid
  else
    match l.quote, l.part with
    | some quote, _ =>
      if c = quote ∧ trailing '\\' l.before % 2 = 0 then
        .ok (.stay { l with part := .behind, quote := none })
      else .ok (.stay l)
    | none, .word =>
      if Text.isBlank c then .ok (.stay { l with part := .behind })
      else if c = '.' then .ok (.stay { l with dotted := true })
      else if Text.isWordLetter c ∨ c = '_' ∨ c = '-' then .ok (.stay l)
      else if l.dotted ∧ l.before.head? = some '.' ∧ (c = '"' ∨ c = '\'') then
        .ok (.stay { l with quote := some c })
      else l.endName c
    | none, _ =>
      if Text.isBlank c then
        if l.dotted then do return .stay (← l.nextWord next) else .ok (.stay l)
      else if c = '.' then do return .stay (← { l with dotted := true }.nextWord next)
      else l.endName c

/-! ### Quotes, marks and line ends -/

/-- The characters before a quote, the last one first.  A text goes in a circle: before its first character
    stands its last one. -/
def past (l : Layout) : List Char :=
  if l.before.isEmpty then l.ending else l.before

/-- Opens the quote if `isOpen`, or closes it. -/
def setQuote (l : Layout) (c : Char) (isOpen : Bool) : Layout :=
  { l with quote := if isOpen then some c else none }

/-- A single quote: the third one in a row begins or ends a text on several lines. -/
def stepSingle (l : Layout) : Layout :=
  if 2 ≤ trailing '\'' l.past then
    { l.setQuote '\'' (!l.multiline) with multiline := !l.multiline }
  else l.setQuote '\'' l.quote.isNone

/-- A double quote, unless an odd number of backslashes stands before it; the third one in a row begins or
    ends a text on several lines. -/
def stepDouble (l : Layout) : Layout :=
  let row := trailing '"' l.past
  if 2 ≤ row then
    if trailing '\\' (l.past.drop 2) % 2 = 0 then
      { l.setQuote '"' (!l.multiline) with multiline := !l.multiline }
    else l
  else if row = 0 ∧ trailing '\\' l.past % 2 = 1 then l
  else l.setQuote '"' l.quote.isNone

/-- Quotes open and close texts; inside of one kind of quotes the other kind says nothing. -/
def stepQuote (l : Layout) (c : Char) : Layout :=
  if c = '\'' ∧ l.quote ≠ some '"' then l.stepSingle
  else if c = '"' ∧ l.quote ≠ some '\'' then l.stepDouble
  else l

/-- Is this outside of texts and of names of tables? -/
def isFree (l : Layout) : Bool :=
  l.quote.isNone && !l.table && !l.tableArray

/-- Comments, and the brackets of arrays and of names of tables. -/
def stepMark (l : Layout) (c : Char) (next : Option Char) : Layout :=
  if c = '#' ∧ l.isFree then { l with comment := true }
  else if c = '[' ∧ l.isFree then
    if l.lineStart then
      if next = some '[' then { l with tableArray := true } else { l with table := true }
    else { l with brackets := l.brackets + 1 }
  else if c = ']' ∧ l.quote.isNone then
    if l.table then { l with table := false }
    else if l.tableArray then
      if l.before.head? = some ']' then { l with tableArray := false } else l
    else { l with brackets := l.brackets - 1 }
  else l

/-- The end of a line inside of a text on several lines.  Behind two quotes it goes away, and so does the
    third one before them. -/
def breakText (l : Layout) : Layout :=
  match l.before with
  | x :: y :: rest =>
    if (x = '\'' ∨ x = '"') ∧ y = x then
      match rest with
      | z :: more => { l with before := x :: x :: y :: (if z = x then ' ' else z) :: more }
      | [] => { l with before := [x, x, y] }
    else { l with before := '\n' :: l.before }
  | _ => { l with before := '\n' :: l.before }

/-- The end of a line. -/
def stepBreak (l : Layout) : Except Failure Layout :=
  if l.quote.isSome || l.multiline then if l.multiline then .ok l.breakText else invalid
  else if l.brackets ≠ 0 then .ok { l with before := ' ' :: l.before }
  else .ok { l with before := '\n' :: l.before, lineStart := true }

/-- A character that stands in the line as `c`.  The first one of a line that is not blank begins the name
    of a setting, if it does not begin the name of a table. -/
def stepPlain (l : Layout) (c : Char) : Except Failure Layout :=
  if l.lineStart ∧ c ≠ ' ' ∧ c ≠ '\t' then
    if l.table || l.tableArray then .ok { l with before := c :: l.before, lineStart := false }
    else if c = '=' then invalid
    else .ok { l with before := c :: l.before, lineStart := false, part := .word }
  else .ok { l with before := c :: l.before }

/-- A character outside of names. -/
def stepOutside (l : Layout) (c : Char) (next : Option Char) : Except Failure Layout :=
  let l := (l.stepQuote c).stepMark c next
  if c = '\n' then l.stepBreak else l.stepPlain (if l.comment then ' ' else c)

/-- One character; `next` is the one behind it. -/
def step (l : Layout) (c : Char) (next : Option Char) : Except Failure Layout :=
  if l.comment && c != '\n' then l.stepPlain ' '
  else
    let l := { l with comment := false }
    if l.part = .outside then l.stepOutside c next
    else
      match l.stepName c next with
      | .error e => .error e
      | .ok (.stay l) => .ok { l with before := c :: l.before }
      | .ok (.leave l) => l.stepOutside c next

/-- All characters of a text. -/
def run (l : Layout) : List Char → Except Failure Layout
  | [] => .ok l
  | c :: rest =>
    match l.step c rest.head? with
    | .ok l => run l rest
    | .error e => .error e

end Layout

/-- The lines of a text in order.  No name and no quote may be open at the end. -/
def layoutLines (text : String) : Except Failure (List (List Char)) := do
  let l ← (Layout.start text.toList).run text.toList
  if l.part ≠ .outside ∨ l.quote.isSome then invalid
  else return Text.pieces '\n' l.before.reverse

end TypedClient.Toml
