import TypedClient.Proofs.Extraction

namespace TypedClient

/-!
# New keys for schemas

A schema that is moved to another file has another key, and whatever refers to it has to refer to the new
key.  Nothing else of a type changes.

* `ClientType.rename` — the type with new keys for its references.
* `Declaration.rename`, `Operation.rename` — the same for whatever is made of types.
-/

namespace ClientType

/-- The type with new keys for its references. -/
def rename (key : String → String) (type : ClientType) : ClientType :=
  type.mapNodes (fun _ old => old) key

end ClientType

/-- The field with new keys in its type. -/
def Field.rename (key : String → String) (f : Field ClientType) : Field ClientType :=
  { f with type := f.type.rename key }

/-- The declaration under its new key, with new keys in its type. -/
def Declaration.rename (key : String → String) (d : Declaration) : Declaration :=
  ⟨d.name, key d.key, d.type.rename key⟩

/-- The parameter with new keys in its type. -/
def Parameter.rename (key : String → String) (p : Parameter) : Parameter :=
  { p with type := p.type.rename key }

/-- The operation with new keys in its types. -/
def Operation.rename (key : String → String) (o : Operation) : Operation :=
  { o with
    parameters := o.parameters.map (.rename key)
    bodyTypes := o.bodyTypes.map (ClientType.rename key)
    result := o.result.rename key }

namespace ClientType

variable {key : String → String}

@[simp] theorem rename_string : rename key .string = .string := rfl

@[simp] theorem rename_number : rename key .number = .number := rfl

@[simp] theorem rename_boolean : rename key .boolean = .boolean := rfl

@[simp] theorem rename_void : rename key .void = .void := rfl

@[simp] theorem rename_freeFormMap : rename key .freeFormMap = .freeFormMap := rfl

@[simp] theorem rename_enum (values : List String) (name : Option String) :
    rename key (.enum values name) = .enum values name := rfl

@[simp] theorem rename_array (element : ClientType) :
    rename key (.array element) = .array (element.rename key) := rfl

@[simp] theorem rename_map (element : ClientType) :
    rename key (.map element) = .map (element.rename key) := rfl

@[simp] theorem rename_ref (target : String) : rename key (.ref target) = .ref (key target) := rfl

@[simp] theorem rename_object (fields : List (Field ClientType)) :
    rename key (.object fields) = .object (fields.map (Field.rename key)) :=
  mapNodes_object fields

@[simp] theorem rename_composition (parts : List ClientType) :
    rename key (.composition parts) = .composition (parts.map (rename key)) :=
  mapNodes_composition parts

@[simp] theorem rename_union (members : List ClientType) (tag : Option String)
    (mapping : Table String String) (shared : Option (List (Field ClientType)))
    (tagType : Option String) :
    rename key (.union members tag mapping shared tagType)
      = .union (members.map (rename key)) tag (mapping.map fun (v, k) => (v, key k))
          (shared.map fun fields => fields.map (Field.rename key)) (tagType.map key) :=
  mapNodes_union members tag mapping shared tagType

end ClientType

end TypedClient
