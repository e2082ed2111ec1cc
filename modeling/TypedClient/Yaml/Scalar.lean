import TypedClient.Table
import TypedClient.Text.Base64
import TypedClient.Text.Case
import TypedClient.Yaml.Cursor
import TypedClient.Yaml.Implicit

namespace TypedClient.Yaml

/-!
# Values of texts

The tag of a text says what kind of value it stands for.

* `ScalarKind`: the kinds of values that a text can stand for.
* `intOf`, `floatOf`, `truthOf`, `octetsOf`, `timestampOf`: the values of the kinds.
* `ScalarKind.value`: the value of a given kind that a text stands for.
-/

/-- The kinds of values that a text can stand for. -/
inductive ScalarKind where
  | null
  | bool
  | int
  | float
  | binary
  | timestamp
  | str
  deriving DecidableEq, Repr, Inhabited

/-- A word or number does not denote a value of its kind. -/
def unsuitable {α : Type} : Except Failure α :=
  .error (.access .invalidScalar)

/-- A result that must be there. -/
def suitable {α : Type} : Option α → Except Failure α
  | some a => .ok a
  | none => unsuitable

/-! ### Numbers -/

/-- A text without the underscores that group its digits. -/
def ungrouped (text : String) : List Char :=
  text.toList.filter (· != '_')

/-- A decimal integer; one of too many digits is not read. -/
def decimal? (cs : List Char) : Option Int :=
  if Value.maxDigits < (cs.filter fun c => (Text.digitValue? c).isSome).length then none
  else Numeral.int? 10 cs

/-- The number whose places in base sixty are given, the highest one first. -/
def ofSixtieths (places : List Int) : Int :=
  places.foldl (fun n place => n * 60 + place) 0

/-- An integer without its sign: binary, hexadecimal, octal, in base sixty, or decimal. -/
def unsignedInt (cs : List Char) : Except Failure Int :=
  match cs with
  | [] => .error (.shape .tooShort)
  | ['0'] => .ok 0
  | '0' :: 'b' :: digits => suitable (Numeral.int? 2 digits)
  | '0' :: 'x' :: digits => suitable (Numeral.int? 16 digits)
  | '0' :: _ => suitable (Numeral.int? 8 cs)
  | _ =>
    if cs.contains ':' then suitable ((Text.pieces ':' cs).mapM decimal? |>.map ofSixtieths)
    else suitable (decimal? cs)

/-- The integer that a text denotes. -/
def intOf (text : String) : Except Failure Int :=
  match ungrouped text with
  | [] => .error (.shape .tooShort)
  | cs =>
    let (negative, body) := Numeral.splitSign cs
    (unsignedInt body).map fun n => if negative then -n else n

/-- The sum of places in base sixty, the lowest one first.  The unit of every place must be a number with
    a fraction, too. -/
def sumOfSixtieths (total : Binary64) (unit : Int) : List Binary64 → Except Failure Binary64
  | [] => .ok total
  | place :: rest =>
    match Binary64.ofInt unit with
    | .infinite _ => .error (.access .numberTooLarge)
    | factor => sumOfSixtieths (total.add (place.mul factor)) (unit * 60) rest

/-- A number with a fraction, without its sign. -/
def unsignedFloat (cs : List Char) : Except Failure Binary64 := do
  if cs = ".inf".toList then return .infinite false
  else if cs = ".nan".toList then return .nan
  else if cs.contains ':' then
    let places ← suitable ((Text.pieces ':' cs).mapM Numeral.real?)
    sumOfSixtieths (.zero false) 1 places.reverse
  else suitable (Numeral.real? cs)

/-- The number with a fraction that a text denotes. -/
def floatOf (text : String) : Except Failure Binary64 :=
  match ungrouped (Text.lowered text) with
  | [] => .error (.shape .tooShort)
  | cs =>
    let (negative, body) := Numeral.splitSign cs
    (unsignedFloat body).map fun x => if negative then x.neg else x

/-! ### Other kinds -/

/-- The words for truth values, in lower case. -/
def truthValues : Table String Bool :=
  [("yes", true), ("no", false), ("true", true), ("false", false), ("on", true), ("off", false)]

/-- The truth value that a word stands for, in whatever case it is written. -/
def truthOf (text : String) : Except Failure Bool :=
  match truthValues.get? (Text.lowered text) with
  | some b => .ok b
  | none => .error (.shape .missingEntry)

/-- The octets that a text denotes; only ASCII is allowed in it. -/
def octetsOf (text : String) : Except Failure (List UInt8) :=
  if text.toList.any fun c => 0x80 ≤ c.toNat then invalid
  else
    match Text.Base64.decode? text.toList with
    | some octets => .ok octets
    | none => invalid

/-- The day or moment that a text denotes; the text must have the form of one. -/
def timestampOf (text : String) : Except Failure Value :=
  let cs := text.toList
  match Timestamp.read? (if cs.getLast? = some '\n' then cs.dropLast else cs) with
  | none => .error Failure.notApplicable
  | some t =>
    match t.value? with
    | some (.inl date) => .ok (.date date)
    | some (.inr moment) => .ok (.moment moment)
    | none => unsuitable

/-- The value of a given kind that a text stands for. -/
def ScalarKind.value (kind : ScalarKind) (text : String) : Except Failure Value :=
  match kind with
  | .null => .ok .null
  | .bool => (truthOf text).map .bool
  | .int => (intOf text).map .int
  | .float => (floatOf text).map .float
  | .binary => (octetsOf text).map .bytes
  | .timestamp => timestampOf text
  | .str => .ok (.text text)

end TypedClient.Yaml
