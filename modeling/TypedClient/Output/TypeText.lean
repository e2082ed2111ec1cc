import TypedClient.ClientType
import TypedClient.Logged
import TypedClient.Naming
import TypedClient.Output.Literal

namespace TypedClient.Output

/-!
# Types as text

The written form of a type.  Writing logs the name of every declaration and enum that the text refers
to, in order.

* `TypeWriter`: what the text of a type depends on besides the type.
* `TypeWriter.isCompound`: does a type need parentheses next to an operator.
* `TypeWriter.write`: the text of a type.
* `TypeWriter.writeEnum`, `TypeWriter.writeDeclaration`: the text of an exported name.
-/

/-- What the text of a type depends on besides the type: the declarations, whether enums are written by
    their names, and what stands in front of names that are declared in the other file. -/
structure TypeWriter where
  registry : Registry
  namedEnums : Bool
  qualifier : Option String

/-- A text between braces. -/
def braced (s : String) : String :=
  "\x7b" ++ s ++ "\x7d"

/-- The blanks in front of a line. -/
def indent (depth : Nat) : String :=
  String.ofList (List.replicate (2 * depth) ' ')

/-- Lines between braces that stand on lines of their own. -/
def block (depth : Nat) (lines : List String) : String :=
  braced ("\n" ++ String.intercalate "\n" lines ++ "\n" ++ indent depth)

namespace TypeWriter

/-! ### Names -/

/-- The text that refers to a declared name; the name goes into the log. -/
def qualified (w : TypeWriter) (name : String) : Logged String := do
  Logged.note name
  return match w.qualifier with
    | some space => space ++ "." ++ name
    | none => name

/-- The declaration with a registry key. -/
def declaration (w : TypeWriter) (key : String) : Except Failure Declaration :=
  match w.registry.get? key with
  | some d => .ok d
  | none => .error (.unresolvableSchema key)

/-- The name that an enum is written by, if it is written by a name. -/
def enumName? (w : TypeWriter) (assignedName : Option String) : Option String :=
  if w.namedEnums then assignedName.filter (· != "") else none

/-! ### Operands -/

/-- Does a type need parentheses next to an operator?  Unions and compositions do, and an enum that is
    written as several literals. -/
def isCompound (w : TypeWriter) : ClientType → Bool
  | .union .. | .composition _ => true
  | .enum values assignedName => (w.enumName? assignedName).isNone && 1 < values.length
  | _ => false

/-- The text of a type next to an operator. -/
def parenthesized (w : TypeWriter) (type : ClientType) (text : String) : String :=
  if w.isCompound type then "(" ++ text ++ ")" else text

/-! ### Unions -/

/-- The registry keys of the members that are references. -/
def memberKeys (members : List ClientType) : List String :=
  members.filterMap fun
    | .ref target => some target
    | _ => none

/-- The first value that a discriminator maps to each key; every key must be one of the members. -/
def tagValues (keys : List String) : Table String String → Except Failure (Table String String)
  | [] => .ok []
  | (value, key) :: rest =>
    if keys.contains key then do
      let later ← tagValues keys rest
      return (key, value) :: later
    else .error (.discriminatorMismatch value key)

/-- The text of a discriminator value: a member of the enum that types the discriminator field, or a
    literal. -/
def tagText (w : TypeWriter) (tagType : Option String) (value : String) : Logged String :=
  match tagType with
  | some key =>
    if w.namedEnums then do
      let d ← w.declaration key
      match d.type with
      | .enum values _ =>
        match (Naming.members values).get? value with
        | some member => return (← w.qualified d.name) ++ "." ++ member
        | none => return literal value
      | _ => return literal value
    else return literal value
  | none => return literal value

/-- The fields that a union shows besides its variants: all shared ones but the discriminator. -/
def shownFields (tag : Option String) (shared : Option (List (Field ClientType))) :
    List (Field ClientType) :=
  (shared.getD []).filter fun f => some f.name != tag

/-! ### Text of types -/

mutual

/-- The text of a type; `depth` is the number of braces that it stands in. -/
def write (w : TypeWriter) (depth : Nat) : ClientType → Logged String
  | .string => return "string"
  | .number => return "number"
  | .boolean => return "boolean"
  | .void => return "void"
  | .freeFormMap => return "Record<string, any>"
  | .map element => return "Record<string, " ++ (← write w depth element) ++ ">"
  | .array element => return w.parenthesized element (← write w depth element) ++ "[]"
  | .enum values assignedName =>
    match w.enumName? assignedName with
    | some name => w.qualified name
    | none => return String.intercalate " | " (values.map literal)
  | .ref target => do w.qualified (← w.declaration target).name
  | .object [] => return braced ""
  | .object fields => return block depth (← writeFields w depth none fields)
  | .composition parts => return String.intercalate " & " (← writeOperands w depth parts)
  | .union members tag mapping none tagType => do
    let values ← tagValues (memberKeys members) mapping
    return String.intercalate " | " (← writeVariants w depth tag values tagType members)
  | .union members tag mapping (some fields) tagType => do
    let values ← tagValues (memberKeys members) mapping
    let variants := String.intercalate " | " (← writeVariants w depth tag values tagType members)
    if (shownFields tag (some fields)).isEmpty then return variants
    return block depth (← writeFields w depth tag fields) ++ " & (" ++ variants ++ ")"

/-- The texts of types next to operators. -/
def writeOperands (w : TypeWriter) (depth : Nat) : List ClientType → Logged (List String)
  | [] => return []
  | type :: rest => do
    let text := w.parenthesized type (← write w depth type)
    return text :: (← writeOperands w depth rest)

/-- The lines of fields, without a field of the name `omitted`. -/
def writeFields (w : TypeWriter) (depth : Nat) (omitted : Option String) :
    List (Field ClientType) → Logged (List String)
  | [] => return []
  | ⟨name, type, required⟩ :: rest =>
    if some name = omitted then writeFields w depth omitted rest
    else do
      let text ← write w (depth + 1) type
      let line := indent (depth + 1) ++ name ++ (if required then "" else "?") ++ ": " ++ text ++ ";"
      return line :: (← writeFields w depth omitted rest)

/-- The variants of a union.  A member that the discriminator has a value for is written without its
    own discriminator field and with that value in its place. -/
def writeVariants (w : TypeWriter) (depth : Nat) (tag : Option String)
    (values : Table String String) (tagType : Option String) :
    List ClientType → Logged (List String)
  | [] => return []
  | member :: rest => do
    let value := match member with
      | .ref target => values.get? target
      | _ => none
    let text ← write w depth member
    let variant ← match tag, value with
      | some field, some value => do
        let tagged := braced (" " ++ field ++ ": " ++ (← w.tagText tagType value) ++ " ")
        pure ("Omit<" ++ text ++ ", '" ++ field ++ "'> & " ++ tagged)
      | _, _ => pure (w.parenthesized member text)
    return variant :: (← writeVariants w depth tag values tagType rest)

end

/-- The text of a type next to an operator. -/
def writeOperand (w : TypeWriter) (depth : Nat) (type : ClientType) : Logged String :=
  return w.parenthesized type (← w.write depth type)

/-! ### Exported names -/

/-- The text of an enum with a name of its own: one member for each value, in order. -/
def writeEnum (name : String) (values : List String) : String :=
  let members := Naming.members values
  let line (value : String) : String :=
    indent 1 ++ (members.get? value).getD "" ++ " = " ++ literal value ++ ","
  "export enum " ++ name ++ " " ++ block 0 (values.map line)

/-- The text of a declaration. -/
def writeDeclaration (w : TypeWriter) (d : Declaration) : Logged String :=
  match w.namedEnums, d.type with
  | true, .enum values _ => return writeEnum d.name values
  | _, type => return "export type " ++ d.name ++ " = " ++ (← w.write 0 type) ++ ";"

end TypeWriter

end TypedClient.Output
