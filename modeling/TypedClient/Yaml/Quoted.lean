import TypedClient.Json
import TypedClient.Yaml.Plain

namespace TypedClient.Yaml.Quoted

/-!
# Quoted texts

A text in quotes can hold every character.  Lines are folded as in plain texts; in double quotes a
backslash begins an escape.

* `readEscape`: what an escape stands for.
* `read`: a text after its opening quote.
-/

/-- The characters that a backslash and one letter stand for. -/
def simpleEscapes : List (Char × Char) :=
  [('0', '\x00'), ('a', '\x07'), ('b', '\x08'), ('t', '\t'), ('\t', '\t'), ('n', '\n'),
    ('v', '\x0b'), ('f', '\x0c'), ('r', '\r'), ('e', '\x1b'), (' ', ' '), ('"', '"'), ('\\', '\\'),
    ('/', '/'), ('N', '\x85'), ('_', '\xa0'), ('L', '\u2028'), ('P', '\u2029')]

/-- The letters that begin the number of a character, with the number of its hexadecimal digits. -/
def numberEscapes : List (Char × Nat) :=
  [('x', 2), ('u', 4), ('U', 8)]

/-- The number that hexadecimal digits spell, all of which must be there. -/
def hexNumber? (count : Nat) (cs : List Char) : Option Nat := do
  if cs.length < count then none
  let digits ← (cs.take count).mapM Json.hexValue?
  return digits.foldl (fun n digit => n * 16 + digit) 0

/-- The text of the character with a number, which can be half of one.  There are none from `0x110000` on; the
    largest numbers are not even looked at. -/
def ofNumber (n : Nat) : Except Failure (List Char) :=
  if 0x80000000 ≤ n then .error (.access .numberTooLarge)
  else if 0x110000 ≤ n then .error (.access .invalidScalar)
  else .ok (Text.ofNumber n)

/-- The line ends among the blanks, tabs and line ends that follow.  No document may begin or end
    there. -/
def breaks : (fuel : Nat) → (before : List Char) → Cursor → Except Failure (List Char × Cursor)
  | 0, before, c => .ok (before, c)
  | fuel + 1, before, c =>
    if c.atDocumentMark then invalid
    else
      let c := c.skipWhile isBlank
      match c.lineBreak? with
      | some (b, c) => breaks fuel (before ++ [b]) c
      | none => .ok (before, c)

/-- What an escape stands for, after its backslash.  A line end in an escape is dropped. -/
def readEscape (c : Cursor) : Except Failure (List Char × Cursor) :=
  match c.rest with
  | [] => invalid
  | letter :: rest =>
    match simpleEscapes.lookup letter, numberEscapes.lookup letter with
    | some ch, _ => .ok ([ch], c.advance)
    | none, some count =>
      match hexNumber? count rest with
      | none => invalid
      | some n => (ofNumber n).map fun cs => (cs, c.skip (count + 1))
    | none, none =>
      match c.lineBreak? with
      | some (_, c) => breaks (c.rest.length + 1) [] c
      | none => invalid

/-- Blanks and line ends inside of a text as part of the text. -/
def gap (c : Cursor) : Except Failure (List Char × Cursor) :=
  let (blanks, c) := c.span isBlank
  match c.lineBreak? with
  | none => .ok (blanks, c)
  | some (first, c) => do
    let (others, c) ← breaks (c.rest.length + 1) [] c
    return (Plain.fold first others, c)

/-- The rest of a text in quotes up to and with the closing quote; `text` is what came before, the last
    character first.  In single quotes a quote is written twice.  Every step takes a character. -/
def readFrom (quote : Char) : (fuel : Nat) → (text : List Char) → Cursor →
    Except Failure (List Char × Cursor)
  | 0, _, _ => invalid
  | fuel + 1, text, c =>
    match c.rest with
    | [] => invalid
    | ch :: rest =>
      if ch = quote then
        if quote = '\'' ∧ rest.head? = some '\'' then readFrom quote fuel ('\'' :: text) (c.skip 2)
        else .ok (text.reverse, c.advance)
      else if ch = '\\' ∧ quote = '"' then
        match readEscape c.advance with
        | .ok (chars, c) => readFrom quote fuel (chars.reverse ++ text) c
        | .error e => .error e
      else if isGap (some ch) then
        match gap c with
        | .ok (chars, c) => readFrom quote fuel (chars.reverse ++ text) c
        | .error e => .error e
      else readFrom quote fuel (ch :: text) c.advance

/-- A text in quotes; its opening quote is the next character. -/
def read (quote : Char) (c : Cursor) : Except Failure (List Char × Cursor) :=
  readFrom quote c.rest.length [] c.advance

end TypedClient.Yaml.Quoted
