import TypedClient.Failure

namespace TypedClient.Yaml

/-!
# Reading a YAML text

The place that reading has come to, and the classes of characters that end things.

* `isPrintable`: the characters that may occur in a document at all.
* `isBreak`, `isGap`: line ends, and whatever separates words.
* `Cursor`: the characters still to be read, and the line and column of the first of them.
-/

/-- The text is not YAML. -/
def invalid {α : Type} : Except Failure α :=
  .error (.access .invalidYaml)

/-- The characters that may occur in a document. -/
def isPrintable (c : Char) : Bool :=
  let n := c.toNat
  n == 0x09 || n == 0x0a || n == 0x0d || (0x20 ≤ n && n ≤ 0x7e) || n == 0x85
    || (0xa0 ≤ n && n ≤ 0xfffd) || 0x10000 ≤ n

/-- The characters that end a line. -/
def isBreak (c : Char) : Bool :=
  c == '\n' || c == '\r' || c == '\x85' || c == '\u2028' || c == '\u2029'

/-- Blanks and tabs. -/
def isBlank (c : Char) : Bool :=
  c == ' ' || c == '\t'

/-- Does a word end before this character?  It does at blanks, tabs, line ends and the end of the
    text. -/
def isGap : Option Char → Bool
  | none => true
  | some c => isBlank c || isBreak c

/-- Is this the end of a line, or a blank? -/
def isBlankOrEnd : Option Char → Bool
  | none => true
  | some c => c == ' ' || isBreak c

/-- The characters still to be read, with the number of characters before them and the line and column
    of the first one. -/
structure Cursor where
  rest : List Char
  index : Nat
  line : Nat
  column : Nat
  deriving Repr, Inhabited

namespace Cursor

/-- The beginning of a text. -/
def start (text : String) : Cursor :=
  ⟨text.toList, 0, 0, 0⟩

/-- The character to be read next, if there is one. -/
def next? (c : Cursor) : Option Char :=
  c.rest.head?

/-- Passes over one character.  A carriage return with a line feed behind it ends no line by itself, and
    a byte order mark takes no column. -/
def advance (c : Cursor) : Cursor :=
  match c.rest with
  | [] => c
  | ch :: rest =>
    if isBreak ch && !(ch == '\r' && rest.head? == some '\n') then
      ⟨rest, c.index + 1, c.line + 1, 0⟩
    else
      ⟨rest, c.index + 1, c.line, if ch = '\ufeff' then c.column else c.column + 1⟩

/-- Passes over `n` characters. -/
def skip (n : Nat) (c : Cursor) : Cursor :=
  Nat.repeat advance n c

/-- The characters up to the first one that is not in a class, and the place after them. -/
def span (p : Char → Bool) (c : Cursor) : List Char × Cursor :=
  let taken := c.rest.takeWhile p
  (taken, c.skip taken.length)

/-- The place after the characters of a class. -/
def skipWhile (p : Char → Bool) (c : Cursor) : Cursor :=
  (c.span p).2

/-- A line end, as the character that it stands for in a text: all of them for a line feed, but for the
    separators of lines and paragraphs. -/
def lineBreak? (c : Cursor) : Option (Char × Cursor) :=
  match c.rest with
  | '\r' :: '\n' :: _ => some ('\n', c.skip 2)
  | ch :: _ =>
    if ch = '\u2028' ∨ ch = '\u2029' then some (ch, c.advance)
    else if isBreak ch then some ('\n', c.advance)
    else none
  | [] => none

/-- Do three marks stand here with a gap behind them? -/
def atTriple (mark : Char) (c : Cursor) : Bool :=
  match c.rest with
  | x :: y :: z :: rest => x == mark && y == mark && z == mark && isGap rest.head?
  | _ => false

/-- Does the mark of a document's beginning or end stand here? -/
def atDocumentMark (c : Cursor) : Bool :=
  c.atTriple '-' || c.atTriple '.'

/-- Passes over blanks, perhaps a comment, and a line end; nothing else may stand there. -/
def skipRestOfLine (c : Cursor) : Except Failure Cursor :=
  let c := c.skipWhile (· == ' ')
  let c := if c.next? = some '#' then c.skipWhile (!isBreak ·) else c
  match c.lineBreak? with
  | some (_, c) => .ok c
  | none => if c.rest.isEmpty then .ok c else invalid

end Cursor

end TypedClient.Yaml
