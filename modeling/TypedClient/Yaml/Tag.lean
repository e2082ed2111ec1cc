import TypedClient.Json
import TypedClient.Yaml.Cursor
import TypedClient.Yaml.Token

namespace TypedClient.Yaml

/-!
# Tags, anchors and directives

The words that begin with a mark of their own.

* `readName`: the name of an anchor or an alias.
* `readTag`: a tag.
* `readDirective`: a line in front of a document.
-/

/-- A character of a name. -/
def isWordChar (c : Char) : Bool :=
  c.isAlphanum || c == '-' || c == '_'

/-- The number that decimal digits spell. -/
def decimal (cs : List Char) : Nat :=
  cs.foldl (fun n c => n * 10 + (c.toNat - '0'.toNat)) 0

/-! ### Names -/

/-- May this character stand behind a name? -/
def endsName : Option Char → Bool
  | none => true
  | some c => isGap (some c) || "?:,]\x7d%@`".toList.contains c

/-- A name after its mark. -/
def readName (c : Cursor) : Except Failure (String × Cursor) :=
  let (name, after) := c.span isWordChar
  if name.isEmpty || !endsName after.next? then invalid else .ok (String.ofList name, after)

/-! ### Tags -/

/-- A character that may stand in a tag as it is. -/
def isTagChar (c : Char) : Bool :=
  c.isAlphanum || "-;/?:@&=+$,_.!~*'()[]".toList.contains c

/-- A row of octets written as percent signs with two hexadecimal digits. -/
def octets : List Char → Except Failure (List UInt8 × List Char)
  | '%' :: a :: b :: rest =>
    match Json.hexValue? a, Json.hexValue? b with
    | some x, some y => do
      let (others, rest) ← octets rest
      return (UInt8.ofNat (x * 16 + y) :: others, rest)
    | _, _ => invalid
  | '%' :: _ => invalid
  | cs => .ok ([], cs)

/-- The text that octets spell. -/
def decoded (bytes : List UInt8) : Except Failure (List Char) :=
  match String.fromUTF8? ⟨bytes.toArray⟩ with
  | some s => .ok s.toList
  | none => invalid

/-- The characters of a tag, with octets decoded, and the number of characters that they take.  Every step
    takes a character. -/
def tagChars : (fuel : Nat) → List Char → Except Failure (List Char × List Char)
  | 0, cs => .ok ([], cs)
  | fuel + 1, cs =>
    match cs with
    | [] => .ok ([], [])
    | c :: rest =>
      if c = '%' then do
        let (bytes, rest) ← octets cs
        let text ← decoded bytes
        let (more, rest) ← tagChars fuel rest
        return (text ++ more, rest)
      else if isTagChar c then do
        let (more, rest) ← tagChars fuel rest
        return (c :: more, rest)
      else .ok ([], cs)

/-- The part of a tag that is spelled out; it must not be empty. -/
def readTagText (c : Cursor) : Except Failure (String × Cursor) := do
  let (text, rest) ← tagChars c.rest.length c.rest
  if text.isEmpty && rest.length == c.rest.length then invalid
  else return (String.ofList text, c.skip (c.rest.length - rest.length))

/-- A handle: an exclamation mark, or a name between two of them. -/
def readHandle (c : Cursor) : Except Failure (String × Cursor) :=
  match c.rest with
  | '!' :: rest =>
    let name := rest.takeWhile isWordChar
    match rest.drop name.length with
    | '!' :: _ => .ok (String.ofList ('!' :: (name ++ ['!'])), c.skip (name.length + 2))
    | other => if name.isEmpty && other.head? == some ' ' then .ok ("!", c.advance) else invalid
  | _ => invalid

/-- Is there another exclamation mark in the word that begins here? -/
def hasHandle (cs : List Char) : Bool :=
  (cs.takeWhile fun c => !isBlankOrEnd (some c)).contains '!'

/-- A tag; its exclamation mark is the next character. -/
def readTag (c : Cursor) : Except Failure (TagText × Cursor) := do
  let (tag, c) ←
    match c.advance.next? with
    | some '<' =>
      let (text, c) ← readTagText (c.skip 2)
      if c.next? = some '>' then pure (TagText.mk none text, c.advance) else invalid
    | next =>
      if isGap next then pure (⟨none, "!"⟩, c.advance)
      else
        let (handle, c) ← if hasHandle c.advance.rest then readHandle c else pure ("!", c.advance)
        let (text, c) ← readTagText c
        pure (⟨some handle, text⟩, c)
  if isBlankOrEnd c.next? then return (tag, c) else invalid

/-! ### Directives -/

/-- Decimal digits, of which there must be one; a number of too many digits is not read. -/
def readDigits (c : Cursor) : Except Failure (Nat × Cursor) :=
  let (digits, after) := c.span Char.isDigit
  if digits.isEmpty then invalid
  else if Value.maxDigits < digits.length then .error (.access .invalidScalar)
  else .ok (decimal digits, after)

/-- The version in a directive. -/
def readVersion (c : Cursor) : Except Failure (Directive × Cursor) := do
  let (major, c) ← readDigits (c.skipWhile (· == ' '))
  if c.next? ≠ some '.' then invalid
  let (minor, c) ← readDigits c.advance
  if isBlankOrEnd c.next? then return (.version major minor, c) else invalid

/-- The handle in a directive and what it stands for. -/
def readHandleDirective (c : Cursor) : Except Failure (Directive × Cursor) := do
  let (name, c) ← readHandle (c.skipWhile (· == ' '))
  if c.next? ≠ some ' ' then invalid
  let (start, c) ← readTagText (c.skipWhile (· == ' '))
  if isBlankOrEnd c.next? then return (.handle name start, c) else invalid

/-- A directive after its percent sign, with the end of its line. -/
def readDirective (c : Cursor) : Except Failure (Directive × Cursor) := do
  let (name, c) := c.span isWordChar
  if name.isEmpty || !isBlankOrEnd c.next? then invalid
  let (d, c) ←
    if name = "YAML".toList then readVersion c
    else if name = "TAG".toList then readHandleDirective c
    else pure (.other, c.skipWhile (!isBreak ·))
  return (d, ← c.skipRestOfLine)

end TypedClient.Yaml
