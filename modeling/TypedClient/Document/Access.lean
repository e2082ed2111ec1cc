import TypedClient.Failure

namespace TypedClient.Value

/-!
# Access to document values

Parts of a document are reached by name.  A part that is missing reads as null; asking a value for
parts that it cannot have is a failure.

* `entries`: the entries of a map.
* `get`: the entry of a map under a name, or null.
* `elements`: what a value yields one by one.
* `holdsText`, `holds`: whether something is in a value.
* `asDisplayed`: a value as a text.
* `asText`: a text that is matched against a pattern.
-/

/-- The entries of a map. -/
def entries (v : Value) : Except Failure (List (Value × Value)) :=
  match v.bare with
  | .map es => .ok es
  | .endless => .error (.access .endless)
  | _ => .error Failure.notApplicable

/-- The entry of a map under a name; null if there is none. -/
def get (v : Value) (name : String) : Except Failure Value :=
  v.entries.map fun es => (find? name es).getD .null

/-- The map itself, or an empty map in place of a value that counts as absent. -/
def orEmpty (v : Value) : Value :=
  v.orElse (.map [])

/-- What a value yields one by one. -/
def elements (v : Value) : Except Failure (List Value) :=
  match v.elements? with
  | some items => .ok items
  | none => .error Failure.notUsable

/-- Is the text in the value? -/
def holdsText (v : Value) (s : String) : Except Failure Bool :=
  match v.holdsText? s with
  | some b => .ok b
  | none => .error Failure.notUsable

/-- Is the integer among the items or keys?  A text cannot be searched for a number. -/
def holdsInt (v : Value) (n : Int) : Except Failure Bool :=
  match v.bare with
  | .list items | .tuple items | .set items => .ok (items.any (· == .int n))
  | .map es => .ok (es.any (·.1 == .int n))
  | _ => .error Failure.notUsable

/-- A value as a text, if it has one. -/
def asDisplayed (v : Value) : Except Failure String :=
  if v.hasText then .ok v.display else .error (.access .noText)

/-- A text that is matched against a pattern. -/
def asText : Value → Except Failure String
  | .text s => .ok s
  | _ => .error Failure.notUsable

end TypedClient.Value
