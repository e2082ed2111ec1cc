import TypedClient.Number.Binary64
import TypedClient.Text.Blank
import TypedClient.Text.Digit

namespace TypedClient.Numeral

/-!
# Numerals

Texts that stand for numbers.  A single underscore can part two digits.

* `natOf?`: the value of digits of a base.
* `int?`: an integer numeral of a base, with a sign, blanks around it and the mark of its base.
* `real?`: a numeral with a fraction or an exponent, or the name of infinity or of no number.
-/

/-- The value of digits of a base that follow others with the value `n`. -/
def natFrom? (base n : Nat) : List Char → Option Nat
  | [] => some n
  | '_' :: c :: rest =>
    match Text.radixValue? base c with
    | some d => natFrom? base (n * base + d) rest
    | none => none
  | c :: rest =>
    match Text.radixValue? base c with
    | some d => natFrom? base (n * base + d) rest
    | none => none

/-- The value of the digits of a base; there must be one. -/
def natOf? (base : Nat) (cs : List Char) : Option Nat :=
  match cs with
  | [] | '_' :: _ => none
  | _ => natFrom? base 0 cs

/-- Takes the sign off the front: is it a minus, and what follows. -/
def splitSign : List Char → Bool × List Char
  | '-' :: rest => (true, rest)
  | '+' :: rest => (false, rest)
  | cs => (false, cs)

/-- The letter that marks a base after a zero. -/
def baseMark : Nat → List Char
  | 2 => ['b', 'B']
  | 8 => ['o', 'O']
  | 16 => ['x', 'X']
  | _ => []

/-- A blank around a numeral.  In a text of ASCII the four separators are none. -/
def isBlankIn (isAscii : Bool) (c : Char) : Bool :=
  Text.isBlank c && !(isAscii && 0x1c ≤ c.toNat && c.toNat ≤ 0x1f)

/-- A numeral without the blanks around it. -/
def trim (cs : List Char) : List Char :=
  let isBlank := isBlankIn (cs.all fun c => c.toNat < 0x80)
  ((cs.dropWhile isBlank).reverse.dropWhile isBlank).reverse

/-- An integer numeral of a base.  Blanks around it, a sign, and a zero with the mark of the base are
    allowed, and an underscore behind that mark. -/
def int? (base : Nat) (cs : List Char) : Option Int :=
  let (negative, digits) := splitSign (trim cs)
  let digits :=
    match digits with
    | '0' :: mark :: rest =>
      if !(baseMark base).contains mark then digits
      else if rest.head? = some '_' then rest.drop 1 else rest
    | _ => digits
  (natOf? base digits).map fun n => if negative then -(n : Int) else n

/-- Decimal digits at the front, of any script, and what follows them. -/
def digitRun : List Char → List Nat × List Char
  | [] => ([], [])
  | c :: '_' :: rest =>
    match Text.digitValue? c with
    | none => ([], c :: '_' :: rest)
    | some d =>
      if (rest.head?.bind Text.digitValue?).isSome then
        let (more, rest) := digitRun rest
        (d :: more, rest)
      else ([d], '_' :: rest)
  | c :: rest =>
    match Text.digitValue? c with
    | none => ([], c :: rest)
    | some d =>
      let (more, rest) := digitRun rest
      (d :: more, rest)

/-- The number that a row of digits spells. -/
def ofDigits (digits : List Nat) : Nat :=
  digits.foldl (fun n d => n * 10 + d) 0

/-- Digits of ASCII at the front, `least` at least and `most` at most: the number, how many there are, and
    what follows. -/
def digits? (least most : Nat) (cs : List Char) : Option (Nat × Nat × List Char) :=
  let ds := (cs.take most).takeWhile Char.isDigit
  if ds.length < least then none
  else some (ofDigits (ds.map fun c => c.toNat - '0'.toNat), ds.length, cs.drop ds.length)

/-- The exponent at the end of a numeral: nothing at all, or the letter with an integer. -/
def exponent? : List Char → Option Int
  | [] => some 0
  | c :: rest =>
    if c = 'e' ∨ c = 'E' then
      let (negative, rest) := splitSign rest
      match digitRun rest with
      | ([], _) => none
      | (digits, []) => some (if negative then -(ofDigits digits : Int) else ofDigits digits)
      | _ => none
    else none

/-- An unsigned numeral: digits, perhaps a point with digits on at least one side, perhaps an
    exponent. -/
def unsignedReal? (negative : Bool) (cs : List Char) : Option Binary64 :=
  let (whole, rest) := digitRun cs
  let (fraction, rest) :=
    match rest with
    | '.' :: rest => digitRun rest
    | _ => ([], rest)
  if whole.isEmpty && fraction.isEmpty then none
  else
    (exponent? rest).map fun power =>
      Binary64.ofDecimal negative (ofDigits (whole ++ fraction)) (power - fraction.length)

/-- A numeral with blanks around it and a sign, in lower case: digits, or the name of infinity or of
    no number. -/
def real? (cs : List Char) : Option Binary64 :=
  let (negative, body) := splitSign (trim cs)
  if body = "inf".toList ∨ body = "infinity".toList then some (.infinite negative)
  else if body = "nan".toList then some .nan
  else unsignedReal? negative body

end TypedClient.Numeral
