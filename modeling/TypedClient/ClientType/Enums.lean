import TypedClient.Route.Operation

namespace TypedClient.ClientType

/-!
# Enums inside types

The enums that stand inside of a type, and the names on the way to them.

* `EnumNode`: an enum inside of a type, with the names around it.
* `enumNodes`: all enums inside of a type, in order.
* `nameEnums`: the type with names given to its enums.
-/

/-- Two lists hold the same values; order and repetitions do not count. -/
def sameValues (a b : List String) : Bool :=
  a.all b.contains && b.all a.contains

/-- An enum inside of a type: its values, its name if it has one, and the names around it from the
    outside in. -/
structure EnumNode where
  values : List String
  assignedName : Option String
  path : List String
  deriving DecidableEq, Repr, Inhabited

mutual

/-- The enums inside of a type.  The shared fields of a union come before its members. -/
def enumNodes (path : List String) : ClientType → List EnumNode
  | .enum values assignedName => [⟨values, assignedName, path⟩]
  | .array element | .map element => enumNodes path element
  | .object fields => enumNodesOfFields path fields
  | .composition parts => enumNodesOfAll path parts
  | .union members _ _ none _ => enumNodesOfAll path members
  | .union members _ _ (some fields) _ =>
    enumNodesOfFields path fields ++ enumNodesOfAll path members
  | _ => []

/-- The enums inside of fields, with the name of the field on the way to them. -/
def enumNodesOfFields (path : List String) : List (Field ClientType) → List EnumNode
  | [] => []
  | ⟨name, type, _⟩ :: rest => enumNodes (path ++ [name]) type ++ enumNodesOfFields path rest

/-- The enums inside of several types. -/
def enumNodesOfAll (path : List String) : List ClientType → List EnumNode
  | [] => []
  | type :: rest => enumNodes path type ++ enumNodesOfAll path rest

end

/-- The name that is given to a set of values. -/
def nameOfValues (names : List (List String × String)) (values : List String) : Option String :=
  (names.find? fun (known, _) => sameValues known values).map (·.2)

mutual

/-- The type with the names that are given to sets of values; an enum of another set keeps its name. -/
def nameEnums (names : List (List String × String)) : ClientType → ClientType
  | .enum values assignedName => .enum values ((nameOfValues names values).or assignedName)
  | .array element => .array (nameEnums names element)
  | .map element => .map (nameEnums names element)
  | .object fields => .object (nameFieldEnums names fields)
  | .composition parts => .composition (nameAllEnums names parts)
  | .union members tag mapping none tagType =>
    .union (nameAllEnums names members) tag mapping none tagType
  | .union members tag mapping (some fields) tagType =>
    .union (nameAllEnums names members) tag mapping (some (nameFieldEnums names fields)) tagType
  | type => type

/-- Fields with the names that are given to the enums inside of them. -/
def nameFieldEnums (names : List (List String × String)) :
    List (Field ClientType) → List (Field ClientType)
  | [] => []
  | ⟨name, type, required⟩ :: rest =>
    ⟨name, nameEnums names type, required⟩ :: nameFieldEnums names rest

/-- Types with the names that are given to the enums inside of them. -/
def nameAllEnums (names : List (List String × String)) : List ClientType → List ClientType
  | [] => []
  | type :: rest => nameEnums names type :: nameAllEnums names rest

end

end TypedClient.ClientType
