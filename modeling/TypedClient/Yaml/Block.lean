import TypedClient.Yaml.Cursor

namespace TypedClient.Yaml.Block

/-!
# Block texts

A block text stands on lines of its own, all of them indented at least as far as the first one.  In a
literal text the lines stay as they are; in a folded one neighbouring lines are joined.

* `Header`: how a text ends, and how far it is indented.
* `indentation`, `breaks`: the lines between the texts.
* `read`: a text after its mark.
-/

/-- How a text ends: without line ends, with one, or with all that are there. -/
inductive Chomping where
  | strip
  | clip
  | keep
  deriving DecidableEq, Repr, Inhabited

/-- What stands after the mark of a block text: how it ends, and how much further than its surroundings it
    is indented, if that is said. -/
structure Header where
  chomping : Chomping
  increment : Option Nat
  deriving DecidableEq, Repr, Inhabited

/-- The end of a text that a sign stands for. -/
def chompingOf? : Option Char → Option Chomping
  | some '+' => some .keep
  | some '-' => some .strip
  | _ => none

/-- The number of further columns that a digit stands for; zero is not allowed. -/
def incrementOf? : Option Char → Option (Except Failure Nat)
  | some c => if c.isDigit then some (if c = '0' then invalid else .ok (c.toNat - '0'.toNat)) else none
  | none => none

/-- The header of a text: a sign and a digit in either order, each of which may be missing. -/
def readHeader (c : Cursor) : Except Failure (Header × Cursor) := do
  let (header, c) ←
    match chompingOf? c.next? with
    | some chomping =>
      match incrementOf? c.advance.next? with
      | some n => pure (Header.mk chomping (some (← n)), c.skip 2)
      | none => pure (⟨chomping, none⟩, c.advance)
    | none =>
      match incrementOf? c.next? with
      | some n =>
        match chompingOf? c.advance.next? with
        | some chomping => pure (⟨chomping, some (← n)⟩, c.skip 2)
        | none => pure (⟨.clip, some (← n)⟩, c.advance)
      | none => pure (⟨.clip, none⟩, c)
  if isBlankOrEnd c.next? then return (header, ← c.skipRestOfLine) else invalid

/-- The line ends in front of a text whose indentation is not known, and the widest row of blanks among
    them. -/
def indentation : (fuel : Nat) → (before : List Char) → (widest : Nat) → Cursor →
    List Char × Nat × Cursor
  | 0, before, widest, c => (before, widest, c)
  | fuel + 1, before, widest, c =>
    if c.next? = some ' ' then
      let c := c.advance
      indentation fuel before (max widest c.column) c
    else
      match c.lineBreak? with
      | some (b, c) => indentation fuel (before ++ [b]) widest c
      | none => (before, widest, c)

/-- Passes over blanks up to the column `indent`. -/
def skipIndent (indent : Nat) (c : Cursor) : Cursor :=
  let blanks := (c.rest.takeWhile (· == ' ')).length
  c.skip (min blanks (indent - c.column))

/-- The line ends up to the next line that is not empty. -/
def breaks (indent : Nat) : (fuel : Nat) → (before : List Char) → Cursor → List Char × Cursor
  | 0, before, c => (before, c)
  | fuel + 1, before, c =>
    let c := skipIndent indent c
    match c.lineBreak? with
    | some (b, c) => breaks indent fuel (before ++ [b]) c
    | none => (before, c)

/-- Does a further line of the text begin here? -/
def atLine (indent : Nat) (c : Cursor) : Bool :=
  c.column == indent && !c.rest.isEmpty

/-- The lines of a text from the next one on; `between` are the line ends before it.  The result is the
    text, the end of its last line, the line ends after that, and the place after them.  In a folded text
    the end of a line is a blank, if neither the line nor the next one begins with a blank. -/
def lines (folded : Bool) (indent : Nat) :
    (fuel : Nat) → (text : List Char) → (last between : List Char) → Cursor →
      List Char × List Char × List Char × Cursor
  | 0, text, last, between, c => (text, last, between, c)
  | fuel + 1, text, last, between, c =>
    if !atLine indent c then (text, last, between, c)
    else
      let flush := !(c.next?.elim false isBlank)
      let (line, c) := c.span (!isBreak ·)
      let text := text ++ between ++ line
      let (last, c) := match c.lineBreak? with
        | some (b, c) => ([b], c)
        | none => ([], c)
      let (between, c) := breaks indent (c.rest.length + 1) [] c
      if atLine indent c then
        let joined := folded && last == ['\n'] && flush && !(c.next?.elim false isBlank)
        let text :=
          if joined then (if between.isEmpty then text ++ [' '] else text) else text ++ last
        lines folded indent fuel text last between c
      else (text, last, between, c)

/-- A block text after its mark; `surrounding` is the indentation of what it stands in. -/
def read (folded : Bool) (surrounding : Int) (c : Cursor) : Except Failure (List Char × Cursor) := do
  let (header, c) ← readHeader c
  let least := (max 1 (surrounding + 1)).toNat
  let (indent, between, c) :=
    match header.increment with
    | some n =>
      let indent := least + n - 1
      let (between, c) := breaks indent (c.rest.length + 1) [] c
      (indent, between, c)
    | none =>
      let (between, widest, c) := indentation c.rest.length [] 0 c
      (max least widest, between, c)
  let (text, last, between, c) := lines folded indent (c.rest.length + 1) [] [] between c
  return match header.chomping with
    | .strip => (text, c)
    | .clip => (text ++ last, c)
    | .keep => (text ++ last ++ between, c)

end TypedClient.Yaml.Block
