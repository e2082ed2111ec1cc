import TypedClient.ClientType
import TypedClient.Link
import TypedClient.Logged
import TypedClient.Naming

namespace TypedClient.Schema

/-!
# Schemas

A schema of an API document describes a type.  Converting it gives the type of the client; the keys of
all schemas that it refers to are logged in the order in which they are met.

* `effectiveType`: the type a schema is of, which may be left to its other keywords.
* `convert`: the type that a schema describes.
* `convertObject`: the type that a schema of type `object` describes.
-/

/-- Keywords that only a schema of type `object` has. -/
def objectKeywords : List String :=
  ["properties", "additionalProperties", "allOf", "oneOf"]

/-- A keyword of a schema; null if it is absent. -/
def keyword (entries : List (Value × Value)) (name : String) : Value :=
  (Value.find? name entries).getD .null

/-- The type of a schema.  If it is absent or null, a keyword of objects makes the schema an object, and
    otherwise a list of values makes it a text. -/
def effectiveType (entries : List (Value × Value)) : Value :=
  match keyword entries "type" with
  | .null =>
    if objectKeywords.any fun name => (Value.find? name entries).isSome then .text "object"
    else if (keyword entries "enum").isFilled then .text "string"
    else .null
  | type => type

/-- The parts that a list of schemas holds.  What else can be gone through holds no schemas. -/
def parts (v : Value) : Except Failure (List Value) :=
  match v.bare with
  | .list items | .tuple items | .set items => .ok items
  | bare => do
    match ← bare.elements with
    | [] => return []
    | first :: _ => throw (Failure.about first (.invalidSchema first))

/-- The fields that the properties of a schema describe; what counts as absent describes none. -/
def properties (v : Value) : Except Failure (List (Value × Value)) :=
  if v.isFilled then v.entries else .ok []

/-- The values of an enum as texts. -/
def enumValues (v : Value) : Except Failure (List String) := do
  (← v.elements).mapM Value.asDisplayed

/-- A collection with nothing in it is no larger than any value. -/
theorem sizeOf_nil_le {α : Type} [SizeOf α] (v : Value) : sizeOf ([] : List α) ≤ sizeOf v := by
  rw [List.nil.sizeOf_spec]
  cases v <;> simp
  omega

/-- The parts of a list of schemas are no larger than the list. -/
theorem sizeOf_le_of_parts {v : Value} {items : List Value} (h : parts v = .ok items) :
    sizeOf items ≤ sizeOf v := by
  have bare := Value.sizeOf_bare_le v
  unfold parts at h
  split at h
  all_goals rename_i hv
  · cases h
    rw [hv] at bare
    exact Nat.le_trans (by simp) bare
  · cases h
    rw [hv] at bare
    exact Nat.le_trans (by simp) bare
  · cases h
    rw [hv] at bare
    exact Nat.le_trans (by simp) bare
  · cases he : v.bare.elements with
    | error e => rw [he] at h; cases h
    | ok xs =>
      rw [he] at h
      cases xs with
      | nil => cases h; exact sizeOf_nil_le v
      | cons x xs => cases h

/-- The fields of a schema are no larger than the value that describes them. -/
theorem sizeOf_le_of_properties {v : Value} {fields : List (Value × Value)}
    (h : properties v = .ok fields) : sizeOf fields ≤ sizeOf v := by
  have bare := Value.sizeOf_bare_le v
  unfold properties at h
  split at h
  · unfold Value.entries at h
    split at h
    · rename_i hv
      cases h
      rw [hv] at bare
      exact Nat.le_trans (by simp) bare
    · cases h
    · cases h
  · cases h
    exact sizeOf_nil_le v

/-! ### Discriminators -/

/-- The registry keys that a discriminator maps its values to. -/
def mappingKeys (scope : Link.Scope) : List (Value × Value) → Except Failure (Table String String)
  | entries => do
    let pairs ← entries.mapM fun (value, link) => do
      return (← value.asDisplayed, ← Link.keyOfValue scope (← Link.ofMapping link))
    return Table.ofList pairs

/-- The declaration that types the discriminator field, if a field of that name is a reference. -/
def tagTypeOf (shared : Option (List (Field ClientType))) (property : Value) :
    Except Failure (Option String) :=
  match shared with
  | some fields =>
    if property.isFilled then do
      let name ← property.asText
      match fields.find? fun f => f.name == Naming.normalize name with
      | some { type := .ref target, .. } => return some target
      | _ => return none
    else return none
  | none => return none

/-- The name of the discriminator field, if it has one. -/
def tagOf (property : Value) : Except Failure (Option String) :=
  if property.isFilled then do return some (Naming.normalize (← property.asText)) else return none

/-! ### Conversion -/

mutual

/-- The type that a schema describes. -/
def convert (scope : Link.Scope) (schema : Value) : Logged ClientType :=
  match schema with
  | .again _ content => convert scope content
  | .endless => throw (.access .endless)
  | .map entries =>
    match Value.find? "$ref" entries with
    | some link => do
      let key ← Link.keyOfValue scope link
      Logged.note key
      return .ref key
    | none =>
      match effectiveType entries with
      | .text "boolean" => return .boolean
      | .text "number" => return .number
      | .text "integer" => return .number
      | .text "string" =>
        if (keyword entries "enum").isFilled then do
          return .enum (← enumValues (keyword entries "enum")) none
        else return .string
      | .text "array" =>
        match _h : Value.find? "items" entries with
        | some items => do return .array (← convert scope items)
        | none => throw (.arrayWithoutItems (keyword entries "title"))
      | .text "object" => convertObject scope entries
      | .null => throw (Failure.about schema (.invalidSchema schema))
      | type => throw (Failure.about type (.unknownType type))
  | _ => throw (Failure.about schema (.invalidSchema schema))
termination_by 2 * sizeOf schema
decreasing_by
  · simp only [Value.again.sizeOf_spec]
    omega
  · have := Value.sizeOf_lt_of_find? _h
    simp only [Value.map.sizeOf_spec]
    omega
  · simp only [Value.map.sizeOf_spec]
    omega

/-- The type that a schema of type `object` describes.  Parts come before alternatives, alternatives
    before plain fields, and these before a map; a schema's own fields are the last of its parts. -/
def convertObject (scope : Link.Scope) (entries : List (Value × Value)) : Logged ClientType := do
  let own ← convertProperties scope entries
  match _h : Value.find? "allOf" entries with
  | some list =>
    match _hp : parts list with
    | .ok items => return .composition ((← convertAll scope items) ++ own.toList.map .object)
    | .error e => throw e
  | none =>
    match _h : Value.find? "oneOf" entries with
    | some list =>
      let discriminator := (keyword entries "discriminator").orEmpty
      let property ← discriminator.get "propertyName"
      let tagType ← tagTypeOf own property
      match _hp : parts list with
      | .ok items =>
        let members ← convertAll scope items
        let tag ← tagOf property
        let mapping ← mappingKeys scope (← (← discriminator.get "mapping").orEmpty.entries)
        return .union members tag mapping own tagType
      | .error e => throw e
    | none =>
      match own with
      | some fields => return .object fields
      | none =>
        match _h : Value.find? "additionalProperties" entries with
        | some (.bool true) => return .freeFormMap
        | some element =>
          if element.isMap then return .map (← convert scope element)
          else throw (Failure.about (.map entries) (.invalidSchema (.map entries)))
        | none => throw (Failure.about (.map entries) (.invalidSchema (.map entries)))
termination_by 2 * sizeOf entries + 1
decreasing_by
  · omega
  · have := Value.sizeOf_lt_of_find? _h
    have := sizeOf_le_of_parts _hp
    omega
  · have := Value.sizeOf_lt_of_find? _h
    have := sizeOf_le_of_parts _hp
    omega
  · have := Value.sizeOf_lt_of_find? _h
    omega

/-- The fields that a schema describes, if it says anything about fields. -/
def convertProperties (scope : Link.Scope) (entries : List (Value × Value)) :
    Logged (Option (List (Field ClientType))) :=
  match _h : Value.find? "properties" entries with
  | none => return none
  | some v =>
    match _hp : properties v with
    | .ok fields => do
      return some (← convertFields scope ((keyword entries "required").orElse (.list [])) fields)
    | .error e => throw e
termination_by 2 * sizeOf entries
decreasing_by
  have := Value.sizeOf_lt_of_find? _h
  have := sizeOf_le_of_properties _hp
  omega

/-- The fields that named schemas describe; a field is required if `required` holds its name. -/
def convertFields (scope : Link.Scope) (required : Value) (fields : List (Value × Value)) :
    Logged (List (Field ClientType)) :=
  match fields with
  | [] => return []
  | (key, schema) :: rest => do
    let name ← key.asText
    let type ← convert scope schema
    let isRequired ← required.holdsText name
    return ⟨Naming.normalize name, type, isRequired⟩ :: (← convertFields scope required rest)
termination_by 2 * sizeOf fields
decreasing_by
  all_goals
    simp only [List.cons.sizeOf_spec, Prod.mk.sizeOf_spec]
    omega

/-- The types that schemas describe. -/
def convertAll (scope : Link.Scope) (schemas : List Value) : Logged (List ClientType) :=
  match schemas with
  | [] => return []
  | schema :: rest => do return (← convert scope schema) :: (← convertAll scope rest)
termination_by 2 * sizeOf schemas
decreasing_by
  all_goals
    simp only [List.cons.sizeOf_spec]
    omega

end

end TypedClient.Schema
