namespace TypedClient

/-!
# Tables

A table holds one value for each of its keys and keeps the keys in the order in which they came.

* `Table.get?`: the value of a key.
* `Table.put`: a value for a key; a key that is there already keeps its place.
* `Table.ofList`: the table that a list of pairs builds, later pairs overriding earlier ones.
-/

/-- Values by key, in the order in which the keys came. -/
abbrev Table (κ α : Type) := List (κ × α)

namespace Table

variable {κ α : Type} [BEq κ]

/-- The value of `key`. -/
def get? (table : Table κ α) (key : κ) : Option α :=
  List.lookup key table

/-- Gives `key` the value `value`: in its place if the key is there, else at the end. -/
def put (table : Table κ α) (key : κ) (value : α) : Table κ α :=
  match table with
  | [] => [(key, value)]
  | (k, v) :: rest => if key == k then (k, value) :: rest else (k, v) :: put rest key value

/-- The table that the pairs build one after the other. -/
def ofList (pairs : List (κ × α)) : Table κ α :=
  pairs.foldl (fun table (key, value) => table.put key value) []

/-- The keys in order. -/
def keys (table : Table κ α) : List κ :=
  table.map (·.1)

/-- The values in order. -/
def values (table : Table κ α) : List α :=
  table.map (·.2)

end Table

end TypedClient
