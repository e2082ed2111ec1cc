import TypedClient.Json
import TypedClient.Toml.Layout

namespace TypedClient.Toml

/-!
# Texts in TOML

A text stands in single or double quotes, three of them if it goes over several lines.  In double quotes a
backslash begins an escape.

* `isSingle`: nothing follows the closing quote.
* `hasKnownEscapes`, `decodeNumbers`, `decodeEscapes`: escapes.
* `textOf`: the text that a value in quotes denotes.
-/

/-- A value does not denote anything. -/
def unsuitable {α : Type} : Except Failure α :=
  .error (.access .invalidScalar)

/-! ### Closing quotes -/

/-- How far the closing quote has come. -/
structure Closing where
  /-- The text has three quotes. -/
  triple : Bool
  closed : Bool
  /-- The quotes in a row so far, of a text with three. -/
  row : Nat

/-- Goes on with a piece between two quotes; nothing but an escaped quote may follow the closing one. -/
def Closing.step (c : Closing) (piece : List Char) : Option Closing :=
  if piece.isEmpty then
    some (if c.triple then { c with row := c.row + 1 } else { c with closed := true })
  else if Layout.trailing '\\' piece.reverse % 2 = 1 then some c
  else if c.closed then none
  else if !c.triple || 1 < c.row then some { c with closed := true }
  else some { c with row := 0 }

/-- Does nothing follow the closing quote? -/
def isSingle (quote : Char) (value : List Char) : Bool :=
  let pieces := Text.pieces quote (value.drop 1)
  let triple := pieces.take 2 == [[], []]
  let pieces := if triple then pieces.drop 2 else pieces
  (pieces.foldlM Closing.step ⟨triple, false, 0⟩).isSome

/-! ### Escapes -/

/-- The letters of escapes with the characters that they denote. -/
def escapes : List (Char × Char) :=
  [('0', '\x00'), ('b', '\x08'), ('f', '\x0c'), ('n', '\n'), ('r', '\r'), ('t', '\t'), ('"', '"')]

/-- Do known letters follow all backslashes?  `escaped` tells that a backslash is escaped itself. -/
def knownFrom (escaped : Bool) : List (List Char) → Bool
  | [] => true
  | [] :: rest => knownFrom (!escaped) rest
  | (c :: _) :: rest =>
    ((escapes.lookup c).isSome || c == 'u' || c == 'U' || escaped) && knownFrom false rest

/-- Do known letters follow all backslashes? -/
def hasKnownEscapes (value : List Char) : Bool :=
  knownFrom false ((Text.pieces '\\' value).drop 1)

/-- The character whose number is written at the front of what follows the letter of an escape.  The
    number must denote a character. -/
def numberedChar (count : Nat) (cs : List Char) : Except Failure (List Char) :=
  let digits := cs.take count
  match digits.mapM Json.hexValue? with
  | none => unsuitable
  | some [] => .error (.shape .tooShort)
  | some [0xd] => .error (.shape .tooShort)
  | some values =>
    let n := values.foldl (fun n v => n * 16 + v) 0
    if values.head? = some 0xd ∧ 8 ≤ (values.drop 1).head?.getD 0 then unsuitable
    else if 0x80000000 ≤ n then .error (.access .numberTooLarge)
    else if 0x110000 ≤ n then unsuitable
    else .ok (Text.ofNumber n ++ cs.drop count)

/-- Puts characters in place of their numbers in the pieces between the marks of such escapes.  A mark whose
    backslash is escaped is no escape. -/
def joinNumbered (mark : List Char) (count : Nat) (text : List Char) (escaped : Bool) :
    List (List Char) → Except Failure (List Char)
  | [] => .ok text
  | piece :: rest =>
    if escaped then
      joinNumbered mark count (text ++ mark ++ piece)
        (Layout.trailing '\\' piece.reverse % 2 = 1) rest
    else
      match numberedChar count piece with
      | .error e => .error e
      | .ok chars => joinNumbered mark count (text ++ chars) false rest

/-- A text with characters in place of the escapes with their numbers. -/
def decodeNumbers (letter : Char) (count : Nat) (value : List Char) : Except Failure (List Char) :=
  let mark := ['\\', letter]
  match Text.piecesUpTo value.length mark value with
  | [] => .ok value
  | first :: rest =>
    joinNumbered mark count first (Layout.trailing '\\' first.reverse % 2 = 1) rest

/-- A text with characters in place of the escapes with one letter. -/
def decodeEscapes : List Char → Except Failure (List Char)
  | '\\' :: c :: rest =>
    if c = '\\' then (decodeEscapes rest).map ('\\' :: ·)
    else
      match escapes.lookup c with
      | some d => (decodeEscapes rest).map (d :: ·)
      | none =>
        if c = 'u' ∨ c = 'U' then (decodeEscapes rest).map fun cs => '\\' :: c :: cs else unsuitable
  | c :: rest => (decodeEscapes rest).map (c :: ·)
  | [] => .ok []

/-! ### Texts -/

/-- What stands between the quotes, one or three on either side. -/
def unquoted (quote : Char) (value : List Char) : List Char :=
  let inner := (value.drop 1).dropLast
  match value with
  | [_, x] => if x = quote then [] else inner
  | _ :: x :: y :: _ => if x = quote ∧ y = quote then ((value.drop 3).dropLast.dropLast).dropLast else inner
  | _ => inner

/-- The text that a value in quotes denotes. -/
def textOf (quote : Char) (value : List Char) : Except Failure String := do
  if !isSingle quote value then unsuitable
  if quote = '"' then
    if !hasKnownEscapes value then unsuitable
    let value ← decodeNumbers 'u' 4 value
    let value ← decodeNumbers 'U' 8 value
    let value ← decodeEscapes value
    return String.ofList (unquoted quote value)
  else return String.ofList (unquoted quote value)

end TypedClient.Toml
