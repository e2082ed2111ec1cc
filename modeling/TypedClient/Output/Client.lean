import TypedClient.Description
import TypedClient.Output.CodeFile
import TypedClient.Output.Frame
import TypedClient.Output.MethodText
import TypedClient.Text.Surrogate

namespace TypedClient.Output

/-!
# The generated client

The client consists of two files: the types, and the methods that use them.

* `Options`: what the text depends on besides the description.
* `typesFile`: all declarations and named enums.
* `methodsFile`: the methods in their groups, with an import of the types that they use.
* `generate`: both files.
-/

/-- What the text of the client depends on besides the description: whether enums are written by name,
    and the name that all types are imported under, if they are not imported one by one. -/
structure Options where
  namedEnums : Bool
  space : Option String
  deriving DecidableEq, Repr, Inhabited

/-- Names in ascending order, each once. -/
def sortedNames (names : List String) : List String :=
  names.eraseDups.mergeSort Text.isOrdered

/-! ### Types -/

/-- The declarations by name; those of one name stay as they were declared. -/
def sortedDeclarations (registry : Registry) : List Declaration :=
  (Table.values registry).mergeSort fun a b => Text.isOrdered a.name b.name

/-- The texts of the enums that were given names, by name. -/
def enumTexts (enums : Table String (List String)) : List String :=
  (enums.mergeSort fun a b => Text.isOrdered a.1 b.1).map fun (name, values) =>
    TypeWriter.writeEnum name values

/-- The file of the types: all declarations, then the enums that were given names. -/
def typesFile (options : Options) (d : Description) : Except Failure CodeFile := do
  let w : TypeWriter := ⟨d.registry, options.namedEnums, none⟩
  let declarations ← ((sortedDeclarations d.registry).mapM w.writeDeclaration).result
  let enums := if options.namedEnums then enumTexts d.enums else []
  return (CodeFile.empty "types.ts").addCode (declarations ++ enums)

/-! ### Methods -/

/-- The group of a method with the methods of its operations. -/
def writeGroup (w : TypeWriter) (operations : List Operation) (g : Group) : Logged String := do
  let methods ← (operations.filter fun o => o.method == g.method).mapM w.writeMethod
  return groupText g methods

/-- The import of the types that the methods use: all under one name, or one by one. -/
def importText (options : Options) (used : List String) : String :=
  match options.space with
  | some space => namespaceImport space
  | none => namedImport (sortedNames used)

/-- The file of the methods.  Every operation must have a method that there is a group for. -/
def methodsFile (options : Options) (d : Description) : Except Failure CodeFile := do
  if !d.operations.all fun o => groups.any fun g => g.method == o.method then
    throw (.shape .missingEntry)
  let w : TypeWriter := ⟨d.registry, options.namedEnums, options.space⟩
  let written := groups.mapM (writeGroup w d.operations)
  let header := headerText (importText options written.log)
  return (CodeFile.empty "api.ts").addCode (header :: (← written.result) ++ [serviceText])

/-! ### Both -/

/-- The two files of the client. -/
def generate (options : Options) (d : Description) : Except Failure Project := do
  return ⟨[← typesFile options d, ← methodsFile options d]⟩

end TypedClient.Output
