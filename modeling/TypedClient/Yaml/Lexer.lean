import TypedClient.Yaml.Block
import TypedClient.Yaml.Quoted
import TypedClient.Yaml.Tag

namespace TypedClient.Yaml

/-!
# From text to tokens

A key of a mapping is only recognized by the colon behind it.  So wherever a key could begin the place is
kept in mind, and when the colon comes the token of the key is put there.  Tokens are read no further
than it takes to know the next one, so that a mistake in the text is met after what stands before it.

* `KeyPlace`: a place where a key could have begun.
* `Lexer`: the state of reading.
* `Lexer.step`: reads the next token.
* `Lexer.settle`: reads tokens until the next one is known.
-/

/-- A place where a key could have begun. -/
structure KeyPlace where
  /-- The number of tokens before it. -/
  position : Nat
  /-- Nothing but a key can stand here. -/
  required : Bool
  index : Nat
  line : Nat
  column : Nat
  deriving Repr, Inhabited

/-- The state of reading. -/
structure Lexer where
  cursor : Cursor
  /-- The number of tokens that have been taken off. -/
  taken : Nat
  /-- The tokens that have been read and not taken off. -/
  pending : List Token
  /-- The column of the innermost block collection; less than zero outside of all. -/
  indent : Int
  /-- The columns of the block collections around it, from the inside out. -/
  indents : List Int
  /-- The place of a possible key in the innermost brackets. -/
  place : Option KeyPlace
  /-- The places of possible keys around every open bracket, from the inside out. -/
  outer : List (Option KeyPlace)
  /-- Can a key, or the item of a block collection, begin here? -/
  keyAllowed : Bool
  done : Bool
  deriving Inhabited

namespace Lexer

/-- The state before a text. -/
def start (text : String) : Lexer where
  cursor := .start text
  taken := 0
  pending := []
  indent := -1
  indents := []
  place := none
  outer := []
  keyAllowed := true
  done := false

/-- Is a bracket open? -/
def inFlow (l : Lexer) : Bool :=
  !l.outer.isEmpty

/-- The state with one more token. -/
def push (l : Lexer) (t : Token) : Lexer :=
  { l with pending := l.pending ++ [t] }

/-- The state with one more token behind the first `position` of all. -/
def insert (position : Nat) (t : Token) (l : Lexer) : Lexer :=
  { l with pending := l.pending.insertIdx (position - l.taken) t }

/-- The state after a mark of one character. -/
def pushMark (l : Lexer) (t : Token) : Lexer :=
  { l.push t with cursor := l.cursor.advance }

/-! ### Indentation -/

/-- Closes the block collections that are indented further than `column`. -/
def closeTo (column : Int) : (indents : List Int) → Lexer → Lexer
  | [], l => l
  | outer :: indents, l =>
    if column < l.indent then
      closeTo column indents { l.push .blockEnd with indent := outer, indents := indents }
    else l

/-- Closes the block collections that a line at `column` ends; brackets do not care for indentation. -/
def unwind (column : Int) (l : Lexer) : Lexer :=
  if l.inFlow then l else closeTo column l.indents l

/-- Is `column` further in than the innermost block collection? -/
def isDeeper (column : Nat) (l : Lexer) : Bool :=
  l.indent < column

/-- Makes `column` the column of the innermost block collection. -/
def enter (column : Nat) (l : Lexer) : Lexer :=
  { l with indent := column, indents := l.indent :: l.indents }

/-- Opens a block collection with the token `t`, if the next character is further in than the innermost
    one. -/
def openHere (t : Token) (l : Lexer) : Lexer :=
  if l.isDeeper l.cursor.column then (l.enter l.cursor.column).push t else l

/-! ### Places of keys -/

/-- A key may be no longer than this. -/
def maxKeyLength : Nat := 1024

/-- A key stands on one line and is not too long, or the place is given up. -/
def keepPlace (c : Cursor) : Option KeyPlace → Except Failure (Option KeyPlace)
  | none => .ok none
  | some p =>
    if p.line = c.line ∧ c.index - p.index ≤ maxKeyLength then .ok (some p)
    else if p.required then invalid
    else .ok none

/-- Gives up the places that are too far away. -/
def dropStale (l : Lexer) : Except Failure Lexer := do
  return { l with place := ← keepPlace l.cursor l.place, outer := ← l.outer.mapM (keepPlace l.cursor) }

/-- Gives up the innermost place; it must not be one where only a key can stand. -/
def dropPlace (l : Lexer) : Except Failure Lexer :=
  match l.place with
  | some p => if p.required then invalid else .ok { l with place := none }
  | none => .ok l

/-- Keeps the next character in mind as the beginning of a key, if one can begin there. -/
def savePlace (l : Lexer) : Except Failure Lexer :=
  if l.keyAllowed then do
    let l ← l.dropPlace
    let c := l.cursor
    let required := !l.inFlow && l.indent == c.column
    let position := l.taken + l.pending.length
    return { l with place := some ⟨position, required, c.index, c.line, c.column⟩ }
  else .ok l

/-! ### Between tokens -/

/-- Passes over blanks, comments and line ends.  Outside of brackets a key can begin on a new line. -/
def skipToToken : (fuel : Nat) → Lexer → Lexer
  | 0, l => l
  | fuel + 1, l =>
    let c := l.cursor.skipWhile (· == ' ')
    let c := if c.next? = some '#' then c.skipWhile (!isBreak ·) else c
    match c.lineBreak? with
    | some (_, c) =>
      skipToToken fuel { l with cursor := c, keyAllowed := l.keyAllowed || !l.inFlow }
    | none => { l with cursor := c }

/-- Passes over everything in front of the next token; a byte order mark may begin the text. -/
def toToken (l : Lexer) : Lexer :=
  let c := l.cursor
  let c := if c.index = 0 ∧ c.next? = some '\ufeff' then c.advance else c
  skipToToken (c.rest.length + 1) { l with cursor := c }

/-! ### Tokens -/

/-- The end of the text closes everything. -/
def readEnd (l : Lexer) : Except Failure Lexer := do
  let l ← (l.unwind (-1)).dropPlace
  return { l.push .streamEnd with keyAllowed := false, done := true }

/-- A directive closes everything. -/
def readDirective (l : Lexer) : Except Failure Lexer := do
  let l ← (l.unwind (-1)).dropPlace
  let (d, cursor) ← Yaml.readDirective l.cursor.advance
  return { l.push (.directive d) with cursor, keyAllowed := false }

/-- The mark of a document's beginning or end closes everything. -/
def readDocumentMark (t : Token) (l : Lexer) : Except Failure Lexer := do
  let l ← (l.unwind (-1)).dropPlace
  return { l.push t with cursor := l.cursor.skip 3, keyAllowed := false }

/-- An opening bracket can be the beginning of a key. -/
def readOpening (t : Token) (l : Lexer) : Except Failure Lexer := do
  let l ← l.savePlace
  return { l.pushMark t with outer := l.place :: l.outer, place := none, keyAllowed := true }

/-- A closing bracket; one must be open. -/
def readClosing (t : Token) (l : Lexer) : Except Failure Lexer := do
  let l ← l.dropPlace
  match l.outer with
  | [] => invalid
  | place :: outer => return { l.pushMark t with place, outer, keyAllowed := false }

/-- A comma between brackets. -/
def readFlowEntry (l : Lexer) : Except Failure Lexer := do
  let l ← l.dropPlace
  return { l.pushMark .flowEntry with keyAllowed := true }

/-- The dash of an item. -/
def readBlockEntry (l : Lexer) : Except Failure Lexer := do
  if !l.inFlow && !l.keyAllowed then invalid
  let l := if l.inFlow then l else l.openHere .blockSequenceStart
  let l ← l.dropPlace
  return { l.pushMark .blockEntry with keyAllowed := true }

/-- The question mark of a key. -/
def readKey (l : Lexer) : Except Failure Lexer := do
  if !l.inFlow && !l.keyAllowed then invalid
  let l := if l.inFlow then l else l.openHere .blockMappingStart
  let l ← l.dropPlace
  return { l.pushMark .key with keyAllowed := !l.inFlow }

/-- The colon of a value.  If a key could have begun before it, it has, and outside of brackets a mapping
    may have begun with it. -/
def readValue (l : Lexer) : Except Failure Lexer :=
  match l.place with
  | some p =>
    let l := { l.insert p.position .key with place := none }
    let l :=
      if !l.inFlow && l.isDeeper p.column then
        (l.enter p.column).insert p.position .blockMappingStart
      else l
    .ok { l.pushMark .value with keyAllowed := false }
  | none => do
    if !l.inFlow && !l.keyAllowed then invalid
    let l := if l.inFlow then l else l.openHere .blockMappingStart
    return { l.pushMark .value with keyAllowed := !l.inFlow }

/-- A word with a mark in front, which can be the beginning of a key. -/
def readMarked {α : Type} (read : Cursor → Except Failure (α × Cursor)) (token : α → Token)
    (l : Lexer) : Except Failure Lexer := do
  let l ← l.savePlace
  let (a, cursor) ← read l.cursor
  return { l.push (token a) with cursor, keyAllowed := false }

/-- A text in quotes. -/
def readQuoted (quote : Char) (l : Lexer) : Except Failure Lexer :=
  l.readMarked (Quoted.read quote) fun text => .scalar (String.ofList text) false

/-- A block text; a key can follow it. -/
def readBlock (folded : Bool) (l : Lexer) : Except Failure Lexer := do
  let l ← l.dropPlace
  let (text, cursor) ← Block.read folded l.indent l.cursor.advance
  return { l.push (.scalar (String.ofList text) false) with cursor, keyAllowed := true }

/-- A plain text; a key can follow it on a new line. -/
def readPlain (l : Lexer) : Except Failure Lexer := do
  let l ← l.savePlace
  let r := Plain.read l.inFlow (l.indent + 1) l.cursor
  return { l.push (.scalar (String.ofList r.text) true) with
    cursor := r.cursor
    keyAllowed := r.lineEnded }

/-- The token that begins with the next character. -/
def readToken (l : Lexer) : Except Failure Lexer :=
  let c := l.cursor
  match c.rest with
  | [] => l.readEnd
  | ch :: rest =>
    let gapFollows := isGap rest.head?
    if ch == '%' && c.column == 0 then l.readDirective
    else if c.column == 0 && c.atTriple '-' then l.readDocumentMark .documentStart
    else if c.column == 0 && c.atTriple '.' then l.readDocumentMark .documentEnd
    else if ch == '[' then l.readOpening .flowSequenceStart
    else if ch == '\x7b' then l.readOpening .flowMappingStart
    else if ch == ']' then l.readClosing .flowSequenceEnd
    else if ch == '\x7d' then l.readClosing .flowMappingEnd
    else if ch == ',' then l.readFlowEntry
    else if ch == '-' && gapFollows then l.readBlockEntry
    else if ch == '?' && (l.inFlow || gapFollows) then l.readKey
    else if ch == ':' && (l.inFlow || gapFollows) then l.readValue
    else if ch == '*' then l.readMarked (fun c => readName c.advance) .alias
    else if ch == '&' then l.readMarked (fun c => readName c.advance) .anchor
    else if ch == '!' then l.readMarked readTag .tag
    else if ch == '|' && !l.inFlow then l.readBlock false
    else if ch == '>' && !l.inFlow then l.readBlock true
    else if ch == '\'' then l.readQuoted '\''
    else if ch == '"' then l.readQuoted '"'
    else if Plain.canStart l.inFlow c.rest then l.readPlain
    else invalid

/-- Reads the next token, and the tokens that the indentation stands for. -/
def step (l : Lexer) : Except Failure Lexer := do
  let l ← l.toToken.dropStale
  (l.unwind l.cursor.column).readToken

/-! ### The next token -/

/-- The number of tokens before the first place where a key could have begun. -/
def firstPlace? (l : Lexer) : Option Nat :=
  ((l.place :: l.outer).filterMap fun place => place.map (·.position)).min?

/-- Reads tokens until the next one is known: there is one, and no key can have begun in front of it any
    more.  Every step takes a character, or is the last one. -/
def settle : (fuel : Nat) → Lexer → Except Failure Lexer
  | 0, _ => invalid
  | fuel + 1, l =>
    if l.done then .ok l
    else if l.pending.isEmpty then l.step >>= settle fuel
    else do
      let l ← l.dropStale
      if l.firstPlace? = some l.taken then settle fuel (← l.step) else return l

/-- Takes the next token off. -/
def skip (l : Lexer) : Lexer :=
  { l with pending := l.pending.drop 1, taken := l.taken + 1 }

end Lexer

end TypedClient.Yaml
