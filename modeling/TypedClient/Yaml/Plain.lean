import TypedClient.Yaml.Cursor

namespace TypedClient.Yaml.Plain

/-!
# Plain texts

A plain text stands without quotes and ends where something else could begin.

* `canStart`: can a plain text begin here.
* `run`: the characters of a plain text up to a gap.
* `read`: a plain text, over several lines if it goes on.
-/

/-- Marks that are not the beginning of a plain text. -/
def marks : List Char :=
  "-?:,[]\x7b\x7d#&*!|>'\"%@`".toList

/-- Can a plain text begin with these characters?  Some marks can begin one if no gap follows. -/
def canStart (inFlow : Bool) : List Char → Bool
  | [] => false
  | c :: rest =>
    !(isGap (some c) || marks.contains c)
      || (!isGap rest.head? && (c == '-' || (!inFlow && (c == '?' || c == ':'))))

/-- A colon ends a plain text before a gap, and inside of brackets before a comma or bracket. -/
def isValueMark (inFlow : Bool) (following : Option Char) : Bool :=
  isGap following || (inFlow && (following.elim false ",[]\x7b\x7d".toList.contains))

/-- The characters of a plain text up to a gap or the end of the text. -/
def run (inFlow : Bool) : List Char → List Char
  | [] => []
  | c :: rest =>
    if isGap (some c) || (c == ':' && isValueMark inFlow rest.head?)
        || (inFlow && ",?[]\x7b\x7d".toList.contains c) then []
    else c :: run inFlow rest

/-- The line ends among the blanks and line ends that follow, and nothing if a document begins or ends
    there.  Every step takes a character, so the length of the text is enough for `fuel`. -/
def breaks : (fuel : Nat) → (before : List Char) → Cursor → Option (List Char) × Cursor
  | 0, before, c => (some before, c)
  | fuel + 1, before, c =>
    if c.next? = some ' ' then breaks fuel before c.advance
    else
      match c.lineBreak? with
      | some (b, c) => if c.atDocumentMark then (none, c) else breaks fuel (before ++ [b]) c
      | none => (some before, c)

/-- Line ends as part of a text: a single one is a blank, and of more than one the first is dropped. -/
def fold (first : Char) (others : List Char) : List Char :=
  if first ≠ '\n' then first :: others else if others.isEmpty then [' '] else others

/-- What stands between two runs as part of the text, whether a line ended in it, and the place after it.
    Nothing stands there if the text has ended. -/
def gap (c : Cursor) : List Char × Bool × Cursor :=
  let (blanks, c) := c.span (· == ' ')
  match c.lineBreak? with
  | none => (blanks, false, c)
  | some (first, c) =>
    if c.atDocumentMark then ([], true, c)
    else
      match breaks c.rest.length [] c with
      | (none, c) => ([], true, c)
      | (some others, c) => (fold first others, true, c)

/-- A plain text, whether a line ended behind it, and the place after it. -/
structure Read where
  text : List Char
  lineEnded : Bool
  cursor : Cursor

/-- A plain text from a further run on; `between` stands before the run.  Outside of brackets the text
    ends where a line begins left of `indent`. -/
def readFrom (inFlow : Bool) (indent : Int) :
    (fuel : Nat) → (text between : List Char) → (lineEnded : Bool) → Cursor → Read
  | 0, text, _, lineEnded, c => ⟨text, lineEnded, c⟩
  | fuel + 1, text, between, lineEnded, c =>
    let chars := run inFlow c.rest
    if c.next? = some '#' ∨ chars.isEmpty then ⟨text, lineEnded, c⟩
    else
      let text := text ++ between ++ chars
      let (between, lineEnded, c) := gap (c.skip chars.length)
      if between.isEmpty || c.next? == some '#' || (!inFlow && c.column < indent) then
        ⟨text, lineEnded, c⟩
      else readFrom inFlow indent fuel text between lineEnded c

/-- A plain text; `indent` is the column that its lines must not begin left of. -/
def read (inFlow : Bool) (indent : Int) (c : Cursor) : Read :=
  readFrom inFlow indent c.rest.length [] [] false c

end TypedClient.Yaml.Plain
