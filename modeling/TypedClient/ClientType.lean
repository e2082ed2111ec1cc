import TypedClient.Table

namespace TypedClient

/-!
# Types of the client

The types that schemas are converted to and that the generated client is written from.

* `Field`: a named part of an object.
* `ClientType`: the types; a reference names a declaration by its registry key.
* `Declaration`: a type with a name of its own.
* `ClientType.isCompound`: does the written form need parentheses next to an operator.
-/

/-- A named part of an object. -/
structure Field (T : Type) where
  name : String
  type : T
  required : Bool
  deriving Repr, Inhabited, DecidableEq

/-- A type of the client. -/
inductive ClientType where
  | string
  | number
  | boolean
  | void
  /-- One of several texts; an enum that is written out of line has a name. -/
  | enum (values : List String) (assignedName : Option String)
  | array (element : ClientType)
  | map (element : ClientType)
  /-- A map whose values can be anything. -/
  | freeFormMap
  | object (fields : List (Field ClientType))
  /-- All of the parts at once. -/
  | composition (parts : List ClientType)
  /-- The declaration with this registry key. -/
  | ref (target : String)
  /-- One of the members, together with the fields that they share.  `tag` is the field that tells
      which member it is, `mapping` gives the registry key for each of its values, and `tagType` the
      declaration of the tag's type. -/
  | union (members : List ClientType) (tag : Option String) (mapping : Table String String)
      (shared : Option (List (Field ClientType))) (tagType : Option String)
  deriving Inhabited, Repr

/-- A type with a name of its own; `key` tells the file and the schema it comes from. -/
structure Declaration where
  name : String
  key : String
  type : ClientType
  deriving Inhabited, Repr

/-- The declarations by registry key. -/
abbrev Registry := Table String Declaration

end TypedClient
