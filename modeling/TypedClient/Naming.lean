import TypedClient.Table
import TypedClient.Text.Case

namespace TypedClient.Naming

/-!
# Names

Identifiers of the generated client are made from names of the API document.

* `normalize`: a name without the punctuation that an identifier may not hold.
* `pascalCase`: the words of a name run together, each with a capital first letter.
* `fresh`: a name that is not taken yet, with the smallest number that makes it so.
* `members`: the member name of every value of an enum.
* `operation`: the name of an operation, from its method and route.
-/

/-- Punctuation that is dropped from names. -/
def isForbidden (c : Char) : Bool :=
  ".,!@#$%^&*()_-".toList.contains c

/-- The name without forbidden punctuation. -/
def normalize (name : String) : String :=
  String.ofList (name.toList.filter fun c => !isForbidden c)

/-! ### Pascal case -/

/-- Letters and digits of the words in `cs`, run together.  A word ends at any other character;
    `atStart` tells that the next letter begins a word.  Only the letters and digits of ASCII count,
    so `Char.toUpper` is the right capital. -/
def pascalChars (atStart : Bool) : List Char → List Char
  | [] => []
  | c :: rest =>
    if c.isAlphanum then (if atStart then c.toUpper else c) :: pascalChars false rest
    else pascalChars true rest

/-- The words of a name run together, each with a capital first letter and otherwise unchanged. -/
def pascalCase (name : String) : String :=
  String.ofList (pascalChars true name.toList)

/-! ### Fresh names -/

/-- The first of `name ++ index`, `name ++ (index + 1)`, … that is not taken, among at most `fuel`
    names. -/
def freshFrom (taken : List String) (name : String) : (fuel index : Nat) → String
  | 0, index => name ++ toString index
  | fuel + 1, index =>
    let candidate := name ++ toString index
    if taken.contains candidate then freshFrom taken name fuel (index + 1) else candidate

/-- The name itself if it is not taken, else the name followed by the least number from two on that
    makes it new.  Of `taken.length + 1` different names one is free, so the search ends. -/
def fresh (taken : List String) (name : String) : String :=
  if taken.contains name then freshFrom taken name taken.length 2 else name

/-- Fresh names for all of `names`, given one after the other. -/
def freshAll (taken : List String) : List String → List String
  | [] => []
  | name :: rest =>
    let chosen := fresh taken name
    chosen :: freshAll (chosen :: taken) rest

/-! ### Enum members -/

/-- The member name that a value asks for: in Pascal case, with a word in front if it would be empty
    or begin with a digit. -/
def memberRoot (value : String) : String :=
  let name := pascalCase value
  match name.toList with
  | [] => "Value"
  | c :: _ => if c.isDigit then "Value" ++ name else name

/-- The member name of every value.  A value that comes again keeps its place and takes the later
    name. -/
def members (values : List String) : Table String String :=
  Table.ofList (values.zip (freshAll [] (values.map memberRoot)))

/-! ### Operations -/

/-- The name of an operation: the method, then the words of the route with its braces removed. -/
def operation (method route : String) : String :=
  pascalCase (Text.lowered method)
    ++ pascalCase (String.ofList (route.toList.filter fun c => c != '{' && c != '}'))

end TypedClient.Naming
