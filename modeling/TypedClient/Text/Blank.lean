namespace TypedClient.Text

/-!
# Blank characters

The characters that are cut off at the ends of a text that someone typed: spaces of every width,
tabs, line and page breaks, and the four separators of the C0 controls.

* `isBlank`: the test on one character.
* `trimStart`, `trimEnd`, `trim`: a text without the blanks at its ends.
-/

/-- The blank characters.  A zero-width space is not one. -/
def isBlank (c : Char) : Bool :=
  let n := c.toNat
  (0x09 ≤ n && n ≤ 0x0d) || (0x1c ≤ n && n ≤ 0x20) || n == 0x85 || n == 0xa0 || n == 0x1680
    || (0x2000 ≤ n && n ≤ 0x200a) || n == 0x2028 || n == 0x2029 || n == 0x202f || n == 0x205f
    || n == 0x3000

/-- Characters without the blanks in front. -/
def trimStart (cs : List Char) : List Char :=
  cs.dropWhile isBlank

/-- Characters without the blanks behind. -/
def trimEnd (cs : List Char) : List Char :=
  (cs.reverse.dropWhile isBlank).reverse

/-- Characters without the blanks on either side. -/
def trim (cs : List Char) : List Char :=
  trimEnd (trimStart cs)

/-- A text without the blanks on either side. -/
def trimmed (s : String) : String :=
  String.ofList (trim s.toList)

end TypedClient.Text
